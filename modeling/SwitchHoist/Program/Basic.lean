/-!
# Programs of the intermediate language

A program is a block, and a block is a list of statements.  A block opens a
scope: a declaration binds its names from the next statement to the end of the
enclosing block.  Functions live in a name space of their own.

The file holds the trees themselves, the short ways to build them, and what a
statement shows at its own level: its expression, its blocks and the names it
introduces.
-/

namespace SwitchHoist

/-- A name with an optional type, as in `a` or `a:u256`. -/
structure TypedName where
  name : String
  typ : Option String
  deriving DecidableEq, Repr, Inhabited

/-- What a literal is written as. -/
inductive LiteralKind where
  | number
  | boolean
  | string
  deriving DecidableEq, Repr, Inhabited

/-- A literal keeps the spelling of its value, and a string keeps it without
the quotes around it. -/
structure Literal where
  kind : LiteralKind
  value : String
  typ : Option String
  deriving DecidableEq, Repr, Inhabited

/-- An expression reads variables and calls functions; it binds nothing. -/
inductive Expr where
  | literal (value : Literal)
  | variable (name : String)
  | call (callee : String) (args : List Expr)
  deriving Repr, Inhabited

mutual

/-- A statement.  The scope of a loop's `pre` block covers its condition, its
`post` block and its body; every other block is a scope of its own. -/
inductive Stmt where
  /-- An expression evaluated for its effects. -/
  | expr (value : Expr)
  /-- `a, b := f()` -/
  | assign (targets : List String) (value : Expr)
  /-- `let a, b:u256 := f()`, or `let a` without a value. -/
  | declare (vars : List TypedName) (value : Option Expr)
  /-- The definition of a function. -/
  | define (name : String) (params returns : List TypedName) (body : List Stmt)
  /-- `if condition { … }` -/
  | branch (condition : Expr) (body : List Stmt)
  /-- A switch runs the first case that matches the value of its scrutinee. -/
  | switch (scrutinee : Expr) (cases : List Case)
  /-- `for { pre } condition { post } { body }` -/
  | loop (pre : List Stmt) (condition : Expr) (post body : List Stmt)
  /-- Leave the innermost loop. -/
  | break
  /-- Go on with the next round of the innermost loop. -/
  | continue
  /-- Return from the enclosing function. -/
  | leave
  /-- A block that stands as a statement. -/
  | block (body : List Stmt)

/-- A case of a switch; without a value it is the default case. -/
structure Case where
  value : Option Literal
  body : List Stmt

end

/-- A block of statements; a whole program is one. -/
abbrev Block := List Stmt

deriving instance Repr for Stmt, Case

instance : Inhabited Stmt := ⟨.leave⟩

instance : Inhabited Case := ⟨⟨none, []⟩⟩

/-- The names in a list of typed names. -/
def TypedName.names (vars : List TypedName) : List String :=
  vars.map TypedName.name

/-- A name without a type. -/
def TypedName.untyped (name : String) : TypedName :=
  ⟨name, none⟩

/-- A number without a type, from its spelling. -/
def Expr.number (spelling : String) : Expr :=
  .literal ⟨.number, spelling, none⟩

/-- A declaration of untyped names. -/
def Stmt.declareUntyped (names : List String) (value : Option Expr) : Stmt :=
  .declare (names.map TypedName.untyped) value

namespace Stmt

/-- The expression a statement evaluates itself, outside its blocks. -/
def expression? : Stmt → Option Expr
  | .expr e => some e
  | .assign _ e => some e
  | .declare _ e => e
  | .branch c _ => some c
  | .switch e _ => some e
  | .loop _ c _ _ => some c
  | .define .. | .break | .continue | .leave | .block _ => none

/-- The blocks directly inside a statement, in the order they are written. -/
def blocks : Stmt → List Block
  | .define _ _ _ body => [body]
  | .branch _ body => [body]
  | .switch _ cases => cases.map Case.body
  | .loop pre _ post body => [pre, post, body]
  | .block body => [body]
  | .expr _ | .assign .. | .declare .. | .break | .continue | .leave => []

/-- The names a statement declares in the scope it stands in. -/
def declared : Stmt → List String
  | .declare vars _ => TypedName.names vars
  | _ => []

/-- Whether a statement is a variable declaration. -/
def isDeclaration : Stmt → Bool
  | .declare .. => true
  | _ => false

/-- The name of the function a statement defines. -/
def defined? : Stmt → Option String
  | .define name .. => some name
  | _ => none

/-- Whether two statements are of the same form. -/
def sameForm : Stmt → Stmt → Bool
  | .expr _, .expr _ => true
  | .assign .., .assign .. => true
  | .declare .., .declare .. => true
  | .define .., .define .. => true
  | .branch .., .branch .. => true
  | .switch .., .switch .. => true
  | .loop .., .loop .. => true
  | .break, .break => true
  | .continue, .continue => true
  | .leave, .leave => true
  | .block _, .block _ => true
  | _, _ => false

end Stmt

/-- The functions defined at the top level of a block. -/
def Block.functions (b : Block) : List String :=
  b.filterMap Stmt.defined?

mutual

/-- A statement followed by every statement inside it, outermost first. -/
def Stmt.subtree : Stmt → List Stmt
  | s@(.define _ _ _ body) => s :: Block.subtrees body
  | s@(.branch _ body) => s :: Block.subtrees body
  | s@(.switch _ cases) => s :: Case.subtrees cases
  | s@(.loop pre _ post body) =>
      s :: (Block.subtrees pre ++ Block.subtrees post ++ Block.subtrees body)
  | s@(.block body) => s :: Block.subtrees body
  | s => [s]

/-- Every statement of a block at any depth, outermost first. -/
def Block.subtrees : List Stmt → List Stmt
  | [] => []
  | s :: rest => s.subtree ++ Block.subtrees rest

/-- Every statement of the cases of a switch at any depth. -/
def Case.subtrees : List Case → List Stmt
  | [] => []
  | ⟨_, body⟩ :: rest => Block.subtrees body ++ Case.subtrees rest

end

theorem Stmt.mem_subtree_self (s : Stmt) : s ∈ s.subtree := by
  cases s <;> simp [Stmt.subtree]

theorem Block.subtrees_append (b c : Block) :
    Block.subtrees (b ++ c) = Block.subtrees b ++ Block.subtrees c := by
  induction b with
  | nil => rfl
  | cons s rest ih => simp [Block.subtrees, ih]

end SwitchHoist
