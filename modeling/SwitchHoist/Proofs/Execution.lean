import Mathlib.Logic.Function.Basic
import SwitchHoist.Program.Basic

/-!
# Execution

A program runs in a world that says what literals mean and what calls answer.  Every
call leaves the program: it is appended to a trace, and its answers depend on nothing
but the trace and how many values are taken.  Definitions of functions have no
execution here.

A block opens a scope.  The declared variables stand in one list, innermost first, and
the end of a block drops those that it declared; every other name is a global variable.
-/

namespace SwitchHoist

/-- What a program finds outside itself. -/
structure World where
  Value : Type
  decEq : DecidableEq Value
  meaning : Literal → Value
  /-- The value of a variable that is declared without one. -/
  unset : Value
  holds : Value → Bool
  /-- The values that a call returns, by the trace that ends with it. -/
  answer : List (String × List Value) → (n : Nat) → Fin n → Value

instance (W : World) : DecidableEq W.Value := W.decEq

/-- Calls with the values of their arguments, in the order in which they were made. -/
abbrev World.Trace (W : World) := List (String × List W.Value)

/-- The place of the case that runs for a value: the first case with a literal of that
value, or else the default case. -/
def World.chosen (W : World) (v : W.Value) (values : List (Option Literal)) : Option Nat :=
  (values.findIdx? fun l => l.any fun l => W.meaning l = v).or (values.findIdx? Option.isNone)

/-- The variables at one moment, and the calls made so far. -/
structure State (W : World) where
  /-- The declared variables, innermost first. -/
  env : List (String × W.Value)
  globals : String → W.Value
  trace : W.Trace

/-- A value for the first entry of a name. -/
def Env.set {α : Type} (x : String) (v : α) : List (String × α) → List (String × α)
  | [] => []
  | (y, w) :: env => if x = y then (y, v) :: env else (y, w) :: set x v env

namespace State

variable {W : World}

/-- A program's state before it runs. -/
def start (globals : String → W.Value) (trace : W.Trace) : State W :=
  ⟨[], globals, trace⟩

def read (σ : State W) (x : String) : W.Value :=
  (List.lookup x σ.env).getD (σ.globals x)

def write (x : String) (v : W.Value) (σ : State W) : State W :=
  if (List.lookup x σ.env).isSome then { σ with env := Env.set x v σ.env }
  else { σ with globals := Function.update σ.globals x v }

def writeAll : List String → List W.Value → State W → State W
  | x :: xs, v :: vs, σ => writeAll xs vs (σ.write x v)
  | _, _, σ => σ

def declare (x : String) (v : W.Value) (σ : State W) : State W :=
  { σ with env := (x, v) :: σ.env }

def declareAll : List String → List W.Value → State W → State W
  | x :: xs, v :: vs, σ => declareAll xs vs (σ.declare x v)
  | _, _, σ => σ

def traced (σ : State W) (t : W.Trace) : State W :=
  { σ with trace := t }

/-- The state without the declared variables above the lowest `n`. -/
def restore (σ : State W) (n : Nat) : State W :=
  { σ with env := σ.env.drop (σ.env.length - n) }

end State

/-- How statements end. -/
inductive Outcome where
  | normal
  | break
  | continue
  | leave
  deriving DecidableEq, Repr

/-- How a loop ends when its body ends so, or `none` if the loop goes on. -/
def Outcome.endsLoop : Outcome → Option Outcome
  | .normal => none
  | .break => some .normal
  | .continue => none
  | .leave => some .leave

variable (W : World)

mutual

/-- The values of an expression where `n` values are taken, and the trace behind it.
Only a call has other than one value. -/
def Expr.eval (read : String → W.Value) : Expr → Nat → W.Trace → Option (List W.Value × W.Trace)
  | .literal l, n, t => if n = 1 then some ([W.meaning l], t) else none
  | .variable x, n, t => if n = 1 then some ([read x], t) else none
  | .call f args, n, t => do
      let (vs, t) ← Expr.evalArgs read args t
      let t := t ++ [(f, vs)]
      some (List.ofFn (W.answer t n), t)

/-- The values of arguments, of which each gives one, from first to last. -/
def Expr.evalArgs (read : String → W.Value) :
    List Expr → W.Trace → Option (List W.Value × W.Trace)
  | [], t => some ([], t)
  | e :: rest, t => do
      let (vs, t) ← e.eval read 1 t
      let (ws, t) ← Expr.evalArgs read rest t
      some (vs ++ ws, t)

end

/-- The one value of an expression. -/
def Expr.value (read : String → W.Value) (e : Expr) (t : W.Trace) : Option (W.Value × W.Trace) :=
  match e.eval W read 1 t with
  | some ([v], t) => some (v, t)
  | _ => none

/-- The values for `n` variables that are declared. -/
def Expr.evalOption (read : String → W.Value) (e : Option Expr) (n : Nat) (t : W.Trace) :
    Option (List W.Value × W.Trace) :=
  match e with
  | none => some (List.replicate n W.unset, t)
  | some e => e.eval W read n t

/-- How many values an expression that stands as a statement gives. -/
def Expr.discarded : Expr → Nat
  | .call .. => 0
  | _ => 1

/-- What can run: a statement, the statements of a scope without or with the end of the
scope, or the rounds of a loop. -/
inductive Code where
  | stmt (s : Stmt)
  | stmts (b : Block)
  | scope (b : Block)
  | rounds (condition : Expr) (post body : Block)

/-- The code runs from one state to another and ends with an outcome. -/
inductive Runs : Code → State W → Outcome → State W → Prop where
  | expr {e : Expr} {σ : State W} {vs : List W.Value} {t : W.Trace} :
      e.eval W σ.read e.discarded σ.trace = some (vs, t) →
      Runs (.stmt (.expr e)) σ .normal (σ.traced t)
  | assign {targets : List String} {e : Expr} {σ : State W} {vs : List W.Value} {t : W.Trace} :
      e.eval W σ.read targets.length σ.trace = some (vs, t) →
      Runs (.stmt (.assign targets e)) σ .normal ((σ.traced t).writeAll targets vs)
  | declare {vars : List TypedName} {e : Option Expr} {σ : State W} {vs : List W.Value}
      {t : W.Trace} :
      Expr.evalOption W σ.read e vars.length σ.trace = some (vs, t) →
      Runs (.stmt (.declare vars e)) σ .normal ((σ.traced t).declareAll (TypedName.names vars) vs)
  | branch {c : Expr} {body : Block} {σ τ : State W} {v : W.Value} {t : W.Trace} {o : Outcome} :
      c.value W σ.read σ.trace = some (v, t) → W.holds v = true →
      Runs (.scope body) (σ.traced t) o τ → Runs (.stmt (.branch c body)) σ o τ
  | branchSkipped {c : Expr} {body : Block} {σ : State W} {v : W.Value} {t : W.Trace} :
      c.value W σ.read σ.trace = some (v, t) → W.holds v = false →
      Runs (.stmt (.branch c body)) σ .normal (σ.traced t)
  | switch {e : Expr} {cases : List Case} {σ τ : State W} {v : W.Value} {t : W.Trace} {k : Nat}
      {c : Case} {o : Outcome} :
      e.value W σ.read σ.trace = some (v, t) → W.chosen v (cases.map Case.value) = some k →
      cases[k]? = some c → Runs (.scope c.body) (σ.traced t) o τ →
      Runs (.stmt (.switch e cases)) σ o τ
  | switchSkipped {e : Expr} {cases : List Case} {σ : State W} {v : W.Value} {t : W.Trace} :
      e.value W σ.read σ.trace = some (v, t) → W.chosen v (cases.map Case.value) = none →
      Runs (.stmt (.switch e cases)) σ .normal (σ.traced t)
  | loop {pre post body : Block} {c : Expr} {σ ρ τ : State W} {o : Outcome} :
      Runs (.stmts pre) σ .normal ρ → Runs (.rounds c post body) ρ o τ →
      Runs (.stmt (.loop pre c post body)) σ o (τ.restore σ.env.length)
  | loopLeft {pre post body : Block} {c : Expr} {σ τ : State W} {o : Outcome} :
      Runs (.stmts pre) σ o τ → o ≠ .normal →
      Runs (.stmt (.loop pre c post body)) σ o (τ.restore σ.env.length)
  | break {σ : State W} : Runs (.stmt .break) σ .break σ
  | continue {σ : State W} : Runs (.stmt .continue) σ .continue σ
  | leave {σ : State W} : Runs (.stmt .leave) σ .leave σ
  | block {body : Block} {σ τ : State W} {o : Outcome} :
      Runs (.scope body) σ o τ → Runs (.stmt (.block body)) σ o τ
  | nil {σ : State W} : Runs (.stmts []) σ .normal σ
  | cons {s : Stmt} {b : Block} {σ ρ τ : State W} {o : Outcome} :
      Runs (.stmt s) σ .normal ρ → Runs (.stmts b) ρ o τ → Runs (.stmts (s :: b)) σ o τ
  | consLeft {s : Stmt} {b : Block} {σ τ : State W} {o : Outcome} :
      Runs (.stmt s) σ o τ → o ≠ .normal → Runs (.stmts (s :: b)) σ o τ
  | scope {b : Block} {σ τ : State W} {o : Outcome} :
      Runs (.stmts b) σ o τ → Runs (.scope b) σ o (τ.restore σ.env.length)
  | done {c : Expr} {post body : Block} {σ : State W} {v : W.Value} {t : W.Trace} :
      c.value W σ.read σ.trace = some (v, t) → W.holds v = false →
      Runs (.rounds c post body) σ .normal (σ.traced t)
  | bodyLeft {c : Expr} {post body : Block} {σ τ : State W} {v : W.Value} {t : W.Trace}
      {o o' : Outcome} :
      c.value W σ.read σ.trace = some (v, t) → W.holds v = true →
      Runs (.scope body) (σ.traced t) o τ → o.endsLoop = some o' →
      Runs (.rounds c post body) σ o' τ
  | postLeft {c : Expr} {post body : Block} {σ ρ τ : State W} {v : W.Value} {t : W.Trace}
      {o o' : Outcome} :
      c.value W σ.read σ.trace = some (v, t) → W.holds v = true →
      Runs (.scope body) (σ.traced t) o ρ → o.endsLoop = none → Runs (.scope post) ρ o' τ →
      o' ≠ .normal → Runs (.rounds c post body) σ o' τ
  | round {c : Expr} {post body : Block} {σ ρ ρ' τ : State W} {v : W.Value} {t : W.Trace}
      {o o' : Outcome} :
      c.value W σ.read σ.trace = some (v, t) → W.holds v = true →
      Runs (.scope body) (σ.traced t) o ρ → o.endsLoop = none → Runs (.scope post) ρ .normal ρ' →
      Runs (.rounds c post body) ρ' o' τ → Runs (.rounds c post body) σ o' τ

/-- A whole program runs from some values of the global variables and some trace to
others. -/
def Block.Runs (b : Block) (globals : String → W.Value) (trace : W.Trace) (o : Outcome)
    (globals' : String → W.Value) (trace' : W.Trace) : Prop :=
  SwitchHoist.Runs W (.scope b) (.start globals trace) o (.start globals' trace')

end SwitchHoist
