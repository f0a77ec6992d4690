import SwitchHoist.Program.Basic
import SwitchHoist.Token.Lexer

/-!
# Reading programs from text

The grammar can be read with one token of look-ahead, and two at the start of
an assignment.  A parser takes the tokens that remain and returns a value and
the tokens behind it, or the expectation that failed and the tokens in front of
which it failed.

Every block, every call and every item of a list takes a token of its own, so no
more of them can follow than there are tokens left.  The numeric argument of a
parser is a bound on these tokens.  It starts as their number; where it reaches
zero no token is left, and the parser fails as it does at the end of the input.
-/

namespace SwitchHoist

/-- What a parser looked for when it failed. -/
inductive Expectation where
  | token (kind : Token.Kind)
  | caseOrDefault
  | getsOrCall
  | expression
  | literal
  | endOfInput
  deriving DecidableEq, Repr

/-- The wording of an expectation. -/
def Expectation.message : Expectation → String
  | .token kind => "expected `" ++ kind.text ++ "`"
  | .caseOrDefault => "switch_r: expected: Case, Default"
  | .getsOrCall => "assign_or_call_r: expected: Gets, OpenParen"
  | .expression => "exp_r: expected: Num, Str, True, False, Id"
  | .literal => "literal_r: expected: Num, Str, True, False"
  | .endOfInput => "expected end of input after the program block"

namespace Parser

/-- An expectation that the remaining tokens do not meet. -/
structure Failure where
  expected : Expectation
  remaining : List Token
  deriving DecidableEq, Repr

end Parser

/-- A parser consumes tokens from the front of a list. -/
abbrev Parser (α : Type) := StateT (List Token) (Except Parser.Failure) α

namespace Parser

variable {α : Type}

/-- Fails in front of the next token. -/
def fail (expected : Expectation) : Parser α := fun tokens =>
  .error ⟨expected, tokens⟩

/-- The kind of the next token. -/
def kind? : Parser (Option Token.Kind) := fun tokens =>
  .ok (tokens.head?.map Token.kind, tokens)

/-- The kind of the token after the next one. -/
def secondKind? : Parser (Option Token.Kind) := fun tokens =>
  .ok (tokens.tail.head?.map Token.kind, tokens)

/-- The number of tokens left. -/
def bound : Parser Nat := fun tokens =>
  .ok (tokens.length, tokens)

/-- Takes the next token if it is of the given kind. -/
def accept? (kind : Token.Kind) : Parser (Option Token) := fun tokens =>
  match tokens with
  | [] => .ok (none, [])
  | t :: rest => if t.kind = kind then .ok (some t, rest) else .ok (none, t :: rest)

/-- Takes the next token, which must be of the given kind. -/
def expect (kind : Token.Kind) : Parser Token := do
  match ← accept? kind with
  | some t => pure t
  | none => fail (.token kind)

/-- Takes a punctuation mark. -/
def mark (m : Mark) : Parser Unit := do
  let _ ← expect (.mark m)

/-- Takes a keyword. -/
def keyword (k : Keyword) : Parser Unit := do
  let _ ← expect (.keyword k)

/-- At most `n` items, as long as the next token can start one. -/
def many (starts : Token.Kind → Bool) (item : Parser α) : Nat → Parser (List α)
  | 0 => pure []
  | n + 1 => do
      match ← kind? with
      | none => pure []
      | some kind =>
          if starts kind then
            let x ← item
            let xs ← many starts item n
            pure (x :: xs)
          else pure []

/-- One item or more with commas between them, and at most `n` commas. -/
def separated (item : Parser α) : Nat → Parser (List α)
  | 0 => do
      let x ← item
      pure [x]
  | n + 1 => do
      let x ← item
      match ← accept? (.mark .comma) with
      | some _ =>
          let xs ← separated item n
          pure (x :: xs)
      | none => pure [x]

/-- An identifier, as text. -/
def name : Parser String := do
  let t ← expect .identifier
  pure t.text

/-- An optional type. -/
def typ? : Parser (Option String) := do
  match ← accept? (.mark .colon) with
  | some _ =>
      let typ ← name
      pure (some typ)
  | none => pure none

/-- A name with an optional type. -/
def typedName : Parser TypedName := do
  let x ← name
  let typ ← typ?
  pure ⟨x, typ⟩

/-- Typed names with commas between them. -/
def typedNames (n : Nat) : Parser (List TypedName) :=
  separated typedName n

/-- The kinds of token that a literal is written with. -/
def literalKind? : Token.Kind → Option LiteralKind
  | .number => some .number
  | .string => some .string
  | .keyword .trueK | .keyword .falseK => some .boolean
  | _ => none

/-- A string token without its quotes; other tokens are kept as they are. -/
def literalValue (t : Token) : String :=
  match t.kind with
  | .string => String.ofList t.text.toList.tail.dropLast
  | _ => t.text

/-- A literal with an optional type. -/
def literal : Parser Literal := do
  match ← kind? with
  | none => fail .literal
  | some kind =>
      match literalKind? kind with
      | none => fail .literal
      | some k =>
          let t ← expect kind
          let typ ← typ?
          pure ⟨k, literalValue t, typ⟩

/-- The kinds of token that start an expression. -/
def startsExpr (kind : Token.Kind) : Bool :=
  kind == .identifier || (literalKind? kind).isSome

/-- An expression. -/
def expr : Nat → Parser Expr
  | 0 => fail .expression
  | n + 1 => do
      match ← accept? .identifier with
      | some t =>
          match ← accept? (.mark .openParen) with
          | some _ =>
              let next ← kind?
              let args ← if next.any startsExpr then separated (expr n) n else pure []
              mark .closeParen
              pure (.call t.text args)
          | none => pure (.variable t.text)
      | none =>
          let next ← kind?
          if next.any startsExpr then
            let l ← literal
            pure (.literal l)
          else fail .expression

/-- The kinds of token that start a statement. -/
def startsStmt : Token.Kind → Bool
  | .mark .openBrace => true
  | .keyword .letK | .keyword .functionK | .keyword .ifK | .keyword .switchK => true
  | .keyword .forK | .keyword .breakK | .keyword .continueK | .keyword .leaveK => true
  | .identifier => true
  | _ => false

/-- The value of a declaration, if `:=` follows. -/
def initializer? (n : Nat) : Parser (Option Expr) := do
  match ← accept? (.mark .gets) with
  | some _ =>
      let e ← expr n
      pure (some e)
  | none => pure none

/-- A declaration. -/
def declaration (n : Nat) : Parser Stmt := do
  keyword .letK
  let vars ← typedNames n
  let value ← initializer? n
  pure (.declare vars value)

/-- The returns of a function, if an arrow follows. -/
def returns (n : Nat) : Parser (List TypedName) := do
  match ← accept? (.mark .arrow) with
  | some _ => typedNames n
  | none => pure []

/-- The definition of a function. -/
def definition (n : Nat) (block : Parser Block) : Parser Stmt := do
  keyword .functionK
  let f ← name
  mark .openParen
  let next ← kind?
  let params ← if next == some .identifier then typedNames n else pure []
  mark .closeParen
  let rs ← returns n
  let body ← block
  pure (.define f params rs body)

/-- An `if`. -/
def branch (n : Nat) (block : Parser Block) : Parser Stmt := do
  keyword .ifK
  let condition ← expr n
  let body ← block
  pure (.branch condition body)

/-- A case with a value. -/
def valueCase (block : Parser Block) : Parser Case := do
  keyword .caseK
  let value ← literal
  let body ← block
  pure ⟨some value, body⟩

/-- The default case, if there is one. -/
def defaultCase (block : Parser Block) : Parser (List Case) := do
  match ← accept? (.keyword .defaultK) with
  | some _ =>
      let body ← block
      pure [⟨none, body⟩]
  | none => pure []

/-- A switch has at least one case, and a default case comes last. -/
def switch (n : Nat) (block : Parser Block) : Parser Stmt := do
  keyword .switchK
  let scrutinee ← expr n
  let cases ← many (· == .keyword .caseK) (valueCase block) n
  let default ← defaultCase block
  if (cases ++ default).isEmpty then fail .caseOrDefault
  else pure (.switch scrutinee (cases ++ default))

/-- A loop. -/
def loop (n : Nat) (block : Parser Block) : Parser Stmt := do
  keyword .forK
  let pre ← block
  let condition ← expr n
  let post ← block
  let body ← block
  pure (.loop pre condition post body)

/-- An assignment. -/
def assignment (n : Nat) : Parser Stmt := do
  let targets ← separated name n
  match ← accept? (.mark .gets) with
  | some _ =>
      let value ← expr n
      pure (.assign targets value)
  | none => fail .getsOrCall

/-- A statement that starts with a name: a call if a parenthesis is next. -/
def assignmentOrCall (n : Nat) : Parser Stmt := do
  if (← secondKind?) = some (.mark .openParen) then
    let e ← expr n
    pure (.expr e)
  else assignment n

/-- A statement whose blocks are read by the given parser. -/
def stmt (n : Nat) (block : Parser Block) : Parser Stmt := do
  match ← kind? with
  | some (.mark .openBrace) =>
      let body ← block
      pure (.block body)
  | some (.keyword .letK) => declaration n
  | some (.keyword .functionK) => definition n block
  | some (.keyword .ifK) => branch n block
  | some (.keyword .switchK) => switch n block
  | some (.keyword .forK) => loop n block
  | some (.keyword .breakK) =>
      keyword .breakK
      pure .break
  | some (.keyword .continueK) =>
      keyword .continueK
      pure .continue
  | some (.keyword .leaveK) =>
      keyword .leaveK
      pure .leave
  | _ => assignmentOrCall n

/-- A block. -/
def block : Nat → Parser Block
  | 0 => fail (.token (.mark .openBrace))
  | n + 1 => do
      mark .openBrace
      let body ← many startsStmt (stmt n (block n)) n
      mark .closeBrace
      pure body

/-- A block with nothing behind it. -/
def program : Parser Block := do
  let n ← bound
  let b ← block n
  match ← kind? with
  | some _ => fail .endOfInput
  | none => pure b

end Parser

/-- Why a text is not a program. -/
inductive ParseError where
  | lex (error : LexError)
  | noTokens
  | atEnd (expected : Expectation)
  | atToken (token : Token) (expected : Expectation)
  deriving DecidableEq, Repr

namespace ParseError

/-- The error for a failure in front of some tokens. -/
def ofFailure (failure : Parser.Failure) : ParseError :=
  match failure.remaining with
  | [] => .atEnd failure.expected
  | t :: _ => .atToken t failure.expected

/-- The message for an error in a text.  An error at a token quotes the row of
the token and puts a caret under its first character. -/
def message (code : String) : ParseError → String
  | lex error => error.message
  | noTokens => "empty token stream"
  | atEnd expected =>
      "parse error: unexpected end of input (" ++ expected.message ++ ")\n"
  | atToken token expected =>
      let place := Position.locate code token.start
      "parse error in line " ++ toString place.row ++ ", column " ++ toString place.column ++ "\n"
        ++ place.line ++ "\n"
        ++ String.ofList (List.replicate place.column ' ') ++ "^\n"
        ++ expected.message ++ "\n"

end ParseError

/-- The program that a list of tokens spells. -/
def Block.ofTokens (tokens : List Token) : Except ParseError Block :=
  if tokens.isEmpty then .error .noTokens
  else
    match Parser.program.run tokens with
    | .ok (b, _) => .ok b
    | .error failure => .error (.ofFailure failure)

/-- The program that a text spells. -/
def Block.parse (code : String) : Except ParseError Block :=
  match lex code with
  | .error e => .error (.lex e)
  | .ok tokens => Block.ofTokens tokens

end SwitchHoist
