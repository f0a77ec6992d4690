import SwitchHoist.Program.Basic
import SwitchHoist.Scopes

/-!
# References to variables

A walk through statements meets every occurrence of a variable in the order of
evaluation, and knows at each one the scopes that were opened on the way.  An
occurrence that none of these scopes binds is free: it refers to a declaration
outside the statements.  What is read, written and free is all said in terms of
this walk.
-/

namespace SwitchHoist

/-- What an occurrence does with its variable. -/
inductive Access where
  | read
  | write
  deriving DecidableEq, Repr, Inhabited

/-- An occurrence of a variable, with the scopes around it. -/
structure Occurrence where
  name : String
  access : Access
  scopes : Scopes
  deriving DecidableEq, Repr

/-- Whether no scope of the walk binds the variable. -/
def Occurrence.isFree (o : Occurrence) : Bool :=
  !o.scopes.binds o.name

mutual

/-- The variables that an expression reads, in the order of evaluation. -/
def Expr.variableNames : Expr → List String
  | .literal _ => []
  | .variable x => [x]
  | .call _ args => Expr.variableNamesOfList args

/-- The variables that a list of expressions reads. -/
def Expr.variableNamesOfList : List Expr → List String
  | [] => []
  | e :: rest => e.variableNames ++ Expr.variableNamesOfList rest

end

mutual

/-- The functions that an expression calls, the outer call first. -/
def Expr.callees : Expr → List String
  | .literal _ => []
  | .variable _ => []
  | .call f args => f :: Expr.calleesOfList args

/-- The functions that a list of expressions calls. -/
def Expr.calleesOfList : List Expr → List String
  | [] => []
  | e :: rest => e.callees ++ Expr.calleesOfList rest

end

/-- The occurrences of variables that an expression reads. -/
def Expr.reads (e : Expr) (scopes : Scopes) : List Occurrence :=
  e.variableNames.map fun x => ⟨x, .read, scopes⟩

/-- The occurrences in the value of a declaration. -/
def Expr.readsOfOption (e : Option Expr) (scopes : Scopes) : List Occurrence :=
  match e with
  | none => []
  | some e => e.reads scopes

mutual

/-- The occurrences in a statement, and the scopes after it. -/
def Stmt.walk : Stmt → Scopes → List Occurrence × Scopes
  | .expr e, scopes => (e.reads scopes, scopes)
  | .assign targets value, scopes =>
      (value.reads scopes ++ targets.map fun x => ⟨x, .write, scopes⟩, scopes)
  | .declare vars value, scopes =>
      (Expr.readsOfOption value scopes, scopes.bindAll (TypedName.names vars))
  | .define _ params returns body, scopes =>
      let inside := scopes.push.bindAll (TypedName.names (params ++ returns))
      let r := Block.walk body inside.push
      (r.1, r.2.pop.pop)
  | .branch condition body, scopes =>
      let r := Block.walk body scopes.push
      (condition.reads scopes ++ r.1, r.2.pop)
  | .switch scrutinee cases, scopes =>
      let r := Case.walk cases scopes
      (scrutinee.reads scopes ++ r.1, r.2)
  | .loop pre condition post body, scopes =>
      let first := Block.walk pre scopes.push
      let second := Block.walk post first.2.push
      let third := Block.walk body second.2.pop.push
      (first.1 ++ condition.reads first.2 ++ second.1 ++ third.1, third.2.pop.pop)
  | .break, scopes => ([], scopes)
  | .continue, scopes => ([], scopes)
  | .leave, scopes => ([], scopes)
  | .block body, scopes =>
      let r := Block.walk body scopes.push
      (r.1, r.2.pop)

/-- The occurrences in statements of one scope, and the scopes after them. -/
def Block.walk : List Stmt → Scopes → List Occurrence × Scopes
  | [], scopes => ([], scopes)
  | s :: rest, scopes =>
      let first := s.walk scopes
      let others := Block.walk rest first.2
      (first.1 ++ others.1, others.2)

/-- The occurrences in the cases of a switch, each in a scope of its own. -/
def Case.walk : List Case → Scopes → List Occurrence × Scopes
  | [], scopes => ([], scopes)
  | ⟨_, body⟩ :: rest, scopes =>
      let first := Block.walk body scopes.push
      let others := Case.walk rest first.2.pop
      (first.1 ++ others.1, others.2)

end

/-- The occurrences in statements that stand in a scope of their own. -/
def Block.occurrences (b : Block) : List Occurrence :=
  (Block.walk b Scopes.initial).1

/-- The names that occur free in statements. -/
def Block.freeNames (b : Block) : Names :=
  (b.occurrences.filter Occurrence.isFree).map Occurrence.name

/-- The variables declared outside a statement that it may assign. -/
def Stmt.written (s : Stmt) : Names :=
  ((Block.occurrences [s]).filter fun o => o.access == .write && o.isFree).map Occurrence.name

/-- The functions called anywhere in a statement. -/
def Stmt.called (s : Stmt) : Names :=
  s.subtree.flatMap fun t => (t.expression?.map Expr.callees).getD []

theorem Block.walk_append (b c : Block) (scopes : Scopes) :
    Block.walk (b ++ c) scopes =
      ((Block.walk b scopes).1 ++ (Block.walk c (Block.walk b scopes).2).1,
        (Block.walk c (Block.walk b scopes).2).2) := by
  induction b generalizing scopes with
  | nil => simp [Block.walk]
  | cons s rest ih => simp [Block.walk, ih, List.append_assoc]

theorem Block.mem_freeNames {b : Block} {x : String} :
    x ∈ b.freeNames ↔ ∃ o ∈ b.occurrences, o.isFree = true ∧ o.name = x := by
  simp [Block.freeNames, and_assoc]

end SwitchHoist
