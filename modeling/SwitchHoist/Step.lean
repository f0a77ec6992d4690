import SwitchHoist.Alignment
import SwitchHoist.Hoisting.Pass
import SwitchHoist.Validity.Rules

/-!
# Optimization steps

A step is a pass over the whole program that can be asked for by name.  Steps run
one after another, and the program is checked behind every step.
-/

namespace SwitchHoist

/-- A pass that can be asked for by name. -/
inductive Step where
  | commonSwitchPrefix
  deriving DecidableEq, Repr, Inhabited

namespace Step

/-- Every step once. -/
def all : List Step :=
  [commonSwitchPrefix]

/-- The name of a step. -/
def name : Step → String
  | commonSwitchPrefix => "common-switch-prefix"

/-- The short name of a step. -/
def abbreviation : Step → String
  | commonSwitchPrefix => "o"

/-- The place of a step among all steps. -/
def index (step : Step) : Nat :=
  all.idxOf step

/-- The step that a name or a short name asks for. -/
def ofName? (word : String) : Option Step :=
  all.find? fun step => step.name == word || step.abbreviation == word

/-- The message for a name that asks for no step. -/
def unknownMessage (word : String) : String :=
  "unknown optimization step: " ++ word

theorem mem_all (step : Step) : step ∈ all := by
  cases step; decide

theorem ofName?_name (step : Step) : ofName? step.name = some step := by
  cases step; decide +kernel

/-- What a step does to a program, without any check. -/
def apply : Step → Block → Except Fault Block
  | commonSwitchPrefix, b => b.hoist Stmt.alphaEq

end Step

/-- Why a program could not be optimized. -/
inductive OptimizeError where
  | fault (fault : Fault)
  /-- Hoisting on its own broke the rules for programs. -/
  | afterHoisting (violations : List Violation)
  /-- A step broke the rules for programs. -/
  | afterStep (step : Step) (violations : List Violation)
  deriving DecidableEq, Repr

/-- The message for such an error. -/
def OptimizeError.message : OptimizeError → String
  | fault f => f.message
  | afterHoisting violations =>
      "hoisting produced an invalid program:\n" ++ (Report.ofViolations violations).text
  | afterStep step violations =>
      "step " ++ step.name ++ " produced an invalid program:\n"
        ++ (Report.ofViolations violations).text

/-- The result of a pass, if it ran and kept the rules for programs. -/
def checked (broken : List Violation → OptimizeError) (result : Except Fault Block) :
    Except OptimizeError Block :=
  match result with
  | .error fault => .error (.fault fault)
  | .ok b => if b.IsValid then .ok b else .error (broken b.violations)

/-- A program with the common prefixes of its switches hoisted, and checked. -/
def Block.hoistChecked (b : Block) : Except OptimizeError Block :=
  checked .afterHoisting (b.hoist Stmt.alphaEq)

/-- A program behind one step, checked. -/
def Step.run (step : Step) (b : Block) : Except OptimizeError Block :=
  checked (.afterStep step) (step.apply b)

/-- A program behind steps that run one after another. -/
def Block.optimize (b : Block) : List Step → Except OptimizeError Block
  | [] => .ok b
  | step :: rest => do
      let b ← step.run b
      Block.optimize b rest

/-- The names of steps, read from first to last; the first that asks for no step
is the error. -/
def Step.ofNames : List String → Except String (List Step)
  | [] => .ok []
  | word :: rest =>
      match Step.ofName? word with
      | none => .error word
      | some step => do
          let steps ← Step.ofNames rest
          .ok (step :: steps)

end SwitchHoist
