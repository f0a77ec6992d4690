import SwitchHoist.Program.Equality
import SwitchHoist.Program.Printer

/-!
# What can be wrong with a program

A violation names the rule that is broken and the tree that breaks it.  A report
is the list of messages about one program, in the order they were found.
-/

namespace SwitchHoist

/-- A broken rule. -/
inductive Violation where
  | emptyIdentifier
  | malformedIdentifier (name : String)
  | reservedIdentifier (name : String)
  | noCases (scrutinee : Expr)
  | severalDefaults (scrutinee : Expr) (count : Nat)
  | defaultNotLast (scrutinee : Expr)
  | repeatedCase (value : Literal) (scrutinee : Expr)
  | repeatedFunction (name : String)
  | repeatedVariable (name : String)
  | repeatedParameter (name function : String)
  | breakOutsideLoop
  | continueOutsideLoop
  | leaveOutsideFunction
  deriving DecidableEq, Repr

/-- The message for a violation. -/
def Violation.message : Violation → String
  | emptyIdentifier => "identifier cannot be the empty string"
  | malformedIdentifier name => name ++ " is an invalid identifier"
  | reservedIdentifier name => "reserved word \"" ++ name ++ "\" used as identifier"
  | noCases scrutinee => "switch on " ++ scrutinee.text ++ " has no cases"
  | severalDefaults scrutinee count =>
      "switch on " ++ scrutinee.text ++ " has " ++ toString count ++ " default cases"
  | defaultNotLast scrutinee =>
      "the default case of the switch on " ++ scrutinee.text ++ " is not the last case"
  | repeatedCase value scrutinee =>
      "duplicate case " ++ value.text ++ " in switch on " ++ scrutinee.text
  | repeatedFunction name => name ++ " is declared more than once in the same block"
  | repeatedVariable name =>
      name ++ " is declared more than once in a single variable declaration"
  | repeatedParameter name function =>
      name ++ " is declared more than once in the parameters and returns of function " ++ function
  | breakOutsideLoop => "break outside of a loop body"
  | continueOutsideLoop => "continue outside of a loop body"
  | leaveOutsideFunction => "leave outside of a function body"

/-- Messages about a program. -/
structure Report where
  messages : List String
  deriving DecidableEq, Repr, Inhabited

namespace Report

/-- A report without messages. -/
def empty : Report :=
  ⟨[]⟩

/-- A report with one more message. -/
def add (report : Report) (message : String) : Report :=
  ⟨report.messages ++ [message]⟩

/-- The messages of one report behind those of another. -/
def append (report other : Report) : Report :=
  ⟨report.messages ++ other.messages⟩

/-- Whether there is no message. -/
def isEmpty (report : Report) : Bool :=
  report.messages.isEmpty

/-- The messages, each on a line of its own. -/
def text (report : Report) : String :=
  concat (report.messages.map fun m => m ++ "\n")

/-- The report about violations. -/
def ofViolations (violations : List Violation) : Report :=
  ⟨violations.map Violation.message⟩

end Report

end SwitchHoist
