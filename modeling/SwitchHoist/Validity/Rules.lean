import SwitchHoist.Program.Identifier
import SwitchHoist.Token.Basic
import SwitchHoist.Validity.CaseKey
import SwitchHoist.Validity.Violation

/-!
# The rules for programs

There are four groups of rules, each checked for the whole program before the
next:

* identifiers are well formed and are no reserved words;
* a switch has a case, at most one default case, which comes last, and no two
  cases that match the same value;
* no name is declared twice in one declaration, among the parameters and returns
  of one function, or as a function of one block;
* `break` and `continue` stand in a loop body, and `leave` in a function body.

Names need not be declared: a program may use names from outside.
-/

namespace SwitchHoist

/-- The items that are equal to an earlier one under a key, given the keys seen
so far. -/
def repeatsBy {α β : Type} [DecidableEq β] (key : α → β) : List β → List α → List α
  | _, [] => []
  | seen, x :: rest =>
      if key x ∈ seen then x :: repeatsBy key seen rest
      else repeatsBy key (key x :: seen) rest

/-- The items that occurred before, once for each repetition. -/
def repeats {α : Type} [DecidableEq α] (xs : List α) : List α :=
  repeatsBy id [] xs

/-! ## Identifiers -/

/-- What is wrong with a name. -/
def identifierViolations (name : String) : List Violation :=
  if name = "" then [.emptyIdentifier]
  else if isIdentifier name then
    if name ∈ reservedWords then [.reservedIdentifier name] else []
  else [.malformedIdentifier name]

mutual

/-- The names in an expression; the callee comes before the arguments. -/
def Expr.identifiers : Expr → List String
  | .literal _ => []
  | .variable x => [x]
  | .call f args => f :: Expr.identifiersOfList args

/-- The names in a list of expressions. -/
def Expr.identifiersOfList : List Expr → List String
  | [] => []
  | e :: rest => e.identifiers ++ Expr.identifiersOfList rest

end

/-- The names that a statement itself declares, assigns or defines. -/
def Stmt.introduced : Stmt → List String
  | .declare vars _ => TypedName.names vars
  | .assign targets _ => targets
  | .define name params returns _ => name :: TypedName.names (params ++ returns)
  | _ => []

/-- The names at the level of a statement, outside its blocks. -/
def Stmt.identifiers (s : Stmt) : List String :=
  s.introduced ++ (s.expression?.map Expr.identifiers).getD []

/-- The malformed and reserved names at the level of a statement. -/
def Stmt.nameViolations (s : Stmt) : List Violation :=
  s.identifiers.flatMap identifierViolations

/-! ## Switches -/

/-- What is wrong with the number and the place of the default cases. -/
def defaultViolations (scrutinee : Expr) (cases : List Case) : List Violation :=
  let count := cases.countP fun c => c.value.isNone
  if 1 < count then [.severalDefaults scrutinee count]
  else if count = 1 ∧ (cases.getLast?.any fun c => c.value.isSome) = true then
    [.defaultNotLast scrutinee]
  else []

/-- The cases that match the same value as an earlier case. -/
def caseViolations (scrutinee : Expr) (cases : List Case) : List Violation :=
  (repeatsBy Literal.caseKey [] (cases.filterMap Case.value)).map fun l =>
    .repeatedCase l scrutinee

/-- What is wrong with a statement if it is a switch. -/
def Stmt.switchViolations : Stmt → List Violation
  | .switch scrutinee [] => [.noCases scrutinee]
  | .switch scrutinee cases => defaultViolations scrutinee cases ++ caseViolations scrutinee cases
  | _ => []

/-! ## Declarations -/

/-- The names that a statement declares twice. -/
def Stmt.declarationViolations : Stmt → List Violation
  | .declare vars _ => (repeats (TypedName.names vars)).map .repeatedVariable
  | .define name params returns _ =>
      (repeats (TypedName.names (params ++ returns))).map fun x => .repeatedParameter x name
  | _ => []

/-- The names that a block declares twice, first as functions. -/
def Block.declarationViolations (b : Block) : List Violation :=
  (repeats (Block.functions b)).map .repeatedFunction ++ b.flatMap Stmt.declarationViolations

/-- A block and all blocks inside it, with the blocks of a statement before those
of its inner statements. -/
def Block.allBlocks (b : Block) : List Block :=
  b :: (Block.subtrees b).flatMap Stmt.blocks

/-! ## Control flow -/

/-- Where a statement stands. -/
structure Place where
  inLoopBody : Bool
  inFunction : Bool
  deriving DecidableEq, Repr

/-- The outermost block of a program. -/
def Place.outermost : Place :=
  ⟨false, false⟩

mutual

/-- The statements inside a statement that leave a loop or a function from
outside it. -/
def Stmt.flowViolations : Stmt → Place → List Violation
  | .break, place => if place.inLoopBody then [] else [.breakOutsideLoop]
  | .continue, place => if place.inLoopBody then [] else [.continueOutsideLoop]
  | .leave, place => if place.inFunction then [] else [.leaveOutsideFunction]
  | .define _ _ _ body, _ => Block.flowViolations body ⟨false, true⟩
  | .branch _ body, place => Block.flowViolations body place
  | .switch _ cases, place => Case.flowViolations cases place
  | .loop pre _ post body, place =>
      Block.flowViolations pre ⟨false, place.inFunction⟩
        ++ Block.flowViolations post ⟨false, place.inFunction⟩
        ++ Block.flowViolations body ⟨true, place.inFunction⟩
  | .block body, place => Block.flowViolations body place
  | .expr _, _ => []
  | .assign _ _, _ => []
  | .declare _ _, _ => []

/-- Those inside the statements of a block. -/
def Block.flowViolations : List Stmt → Place → List Violation
  | [], _ => []
  | s :: rest, place => s.flowViolations place ++ Block.flowViolations rest place

/-- Those inside the cases of a switch. -/
def Case.flowViolations : List Case → Place → List Violation
  | [], _ => []
  | ⟨_, body⟩ :: rest, place => Block.flowViolations body place ++ Case.flowViolations rest place

end

/-! ## Programs -/

/-- Everything that is wrong with a program. -/
def Block.violations (b : Block) : List Violation :=
  (Block.subtrees b).flatMap Stmt.nameViolations
    ++ (Block.subtrees b).flatMap Stmt.switchViolations
    ++ (Block.allBlocks b).flatMap Block.declarationViolations
    ++ Block.flowViolations b Place.outermost

/-- A program that breaks no rule. -/
def Block.IsValid (b : Block) : Prop :=
  b.violations = []

instance (b : Block) : Decidable b.IsValid :=
  inferInstanceAs (Decidable (b.violations = []))

/-- The report about a program. -/
def Block.report (b : Block) : Report :=
  .ofViolations b.violations

end SwitchHoist
