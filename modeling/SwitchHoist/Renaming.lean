import SwitchHoist.References

/-!
# Renaming free variables

A renaming gives new names to variables, all at the same time, so that two
variables can be swapped.  It changes the free occurrences only: an occurrence
below a declaration of the same name means another variable, and declarations,
functions and callees keep their names.

A renaming may be applied piece by piece.  What a piece declares in its own scope
then stays bound for the pieces after it, which is why the functions here return
the scopes behind what they rename.
-/

namespace SwitchHoist

/-- New names for variables.  For a name that is listed more than once the first
entry counts. -/
abbrev Renaming := List (String × String)

namespace Renaming

/-- The new name of a variable, if it has one. -/
def target? (ρ : Renaming) (x : String) : Option String :=
  List.lookup x ρ

/-- The names that have a new name. -/
def maps (ρ : Renaming) (x : String) : Bool :=
  (ρ.target? x).isSome

/-- Gives a variable a new name, whatever it was called before. -/
def insert (ρ : Renaming) (x y : String) : Renaming :=
  (x, y) :: ρ

/-- The name of an occurrence after renaming. -/
def name (ρ : Renaming) (scopes : Scopes) (x : String) : String :=
  match ρ.target? x with
  | some y => if scopes.binds x then x else y
  | none => x

/-- The scopes behind a declaration.  Only names that would be renamed have to be
remembered. -/
def declare (ρ : Renaming) (vars : List TypedName) (scopes : Scopes) : Scopes :=
  scopes.bindAll ((TypedName.names vars).filter ρ.maps)

@[simp] theorem target?_nil (x : String) : target? [] x = none := rfl

@[simp] theorem name_nil (scopes : Scopes) (x : String) : name [] scopes x = x := rfl

theorem target?_insert (ρ : Renaming) (x y z : String) :
    (ρ.insert x y).target? z = if z = x then some y else ρ.target? z := by
  by_cases h : z = x
  · simp [insert, target?, h]
  · have : (z == x) = false := by simp [h]
    simp [insert, target?, List.lookup_cons, h, this]

end Renaming

mutual

/-- An expression after renaming; the scopes are those around it. -/
def Expr.rename (ρ : Renaming) (scopes : Scopes) : Expr → Expr
  | .literal l => .literal l
  | .variable x => .variable (ρ.name scopes x)
  | .call f args => .call f (Expr.renameList ρ scopes args)

/-- The arguments of a call after renaming. -/
def Expr.renameList (ρ : Renaming) (scopes : Scopes) : List Expr → List Expr
  | [] => []
  | e :: rest => e.rename ρ scopes :: Expr.renameList ρ scopes rest

end

mutual

/-- A statement after renaming, and the scopes behind it. -/
def Stmt.rename (ρ : Renaming) : Stmt → Scopes → Stmt × Scopes
  | .expr e, scopes => (.expr (e.rename ρ scopes), scopes)
  | .assign targets value, scopes =>
      (.assign (targets.map (ρ.name scopes)) (value.rename ρ scopes), scopes)
  | .declare vars value, scopes =>
      (.declare vars (value.map (Expr.rename ρ scopes)), ρ.declare vars scopes)
  | .define name params returns body, scopes =>
      let inside := ρ.declare returns (ρ.declare params scopes.push)
      let r := Block.renameFrom ρ body inside.push
      (.define name params returns r.1, r.2.pop.pop)
  | .branch condition body, scopes =>
      let r := Block.renameFrom ρ body scopes.push
      (.branch (condition.rename ρ scopes) r.1, r.2.pop)
  | .switch scrutinee cases, scopes =>
      let r := Case.renameFrom ρ cases scopes
      (.switch (scrutinee.rename ρ scopes) r.1, r.2)
  | .loop pre condition post body, scopes =>
      let first := Block.renameFrom ρ pre scopes.push
      let second := Block.renameFrom ρ post first.2.push
      let third := Block.renameFrom ρ body second.2.pop.push
      (.loop first.1 (condition.rename ρ first.2) second.1 third.1, third.2.pop.pop)
  | .break, scopes => (.break, scopes)
  | .continue, scopes => (.continue, scopes)
  | .leave, scopes => (.leave, scopes)
  | .block body, scopes =>
      let r := Block.renameFrom ρ body scopes.push
      (.block r.1, r.2.pop)

/-- Statements of one scope after renaming, and the scopes behind them. -/
def Block.renameFrom (ρ : Renaming) : List Stmt → Scopes → List Stmt × Scopes
  | [], scopes => ([], scopes)
  | s :: rest, scopes =>
      let first := s.rename ρ scopes
      let others := Block.renameFrom ρ rest first.2
      (first.1 :: others.1, others.2)

/-- The cases of a switch after renaming, each in a scope of its own. -/
def Case.renameFrom (ρ : Renaming) : List Case → Scopes → List Case × Scopes
  | [], scopes => ([], scopes)
  | ⟨value, body⟩ :: rest, scopes =>
      let first := Block.renameFrom ρ body scopes.push
      let others := Case.renameFrom ρ rest first.2.pop
      (⟨value, first.1⟩ :: others.1, others.2)

end

namespace Renaming

/-- A statement on its own after renaming. -/
def stmt (ρ : Renaming) (s : Stmt) : Stmt :=
  (s.rename ρ Scopes.initial).1

/-- The statements of one scope after renaming. -/
def stmts (ρ : Renaming) (b : Block) : Block :=
  (Block.renameFrom ρ b Scopes.initial).1

/-- Whether an occurrence still refers to its variable when the statements around
it are renamed and the reserved names are declared right before them: a new name
must not be caught by a declaration on the way, and a name that stays must not
be caught by a reserved one. -/
def keeps (ρ : Renaming) (reserved : Names) (o : Occurrence) : Bool :=
  o.scopes.binds o.name ||
    match ρ.target? o.name with
    | some y => !o.scopes.binds y
    | none => !reserved.contains o.name

/-- Whether every occurrence in some statements still refers to its variable. -/
def preserves (ρ : Renaming) (reserved : Names) (b : Block) : Bool :=
  b.occurrences.all (ρ.keeps reserved)

end Renaming

/-- Statements renamed on from some scopes, split in two. -/
theorem Block.renameFrom_append (ρ : Renaming) (b c : Block) (scopes : Scopes) :
    Block.renameFrom ρ (b ++ c) scopes =
      ((Block.renameFrom ρ b scopes).1 ++ (Block.renameFrom ρ c (Block.renameFrom ρ b scopes).2).1,
        (Block.renameFrom ρ c (Block.renameFrom ρ b scopes).2).2) := by
  induction b generalizing scopes with
  | nil => simp [Block.renameFrom]
  | cons s rest ih => simp [Block.renameFrom, ih]

theorem Block.length_renameFrom (ρ : Renaming) (b : Block) (scopes : Scopes) :
    (Block.renameFrom ρ b scopes).1.length = b.length := by
  induction b generalizing scopes with
  | nil => rfl
  | cons s rest ih => simp [Block.renameFrom, ih]

mutual

/-- A renaming without entries changes nothing in an expression. -/
theorem Expr.rename_nil (scopes : Scopes) : (e : Expr) → e.rename [] scopes = e
  | .literal _ => rfl
  | .variable _ => rfl
  | .call f args => by simp [Expr.rename, Expr.renameList_nil scopes args]

theorem Expr.renameList_nil (scopes : Scopes) : (es : List Expr) → Expr.renameList [] scopes es = es
  | [] => rfl
  | e :: rest => by
      simp [Expr.renameList, Expr.rename_nil scopes e, Expr.renameList_nil scopes rest]

end

mutual

/-- A renaming without entries changes nothing in a statement. -/
theorem Stmt.rename_nil : (s : Stmt) → (scopes : Scopes) → (s.rename [] scopes).1 = s
  | .expr e, scopes => by simp [Stmt.rename, Expr.rename_nil]
  | .assign targets value, scopes => by
      have htargets : targets.map (Renaming.name [] scopes) = targets := by
        induction targets with
        | nil => rfl
        | cons x rest ih => simp [ih]
      simp [Stmt.rename, Expr.rename_nil, htargets]
  | .declare vars value, scopes => by
      cases value <;> simp [Stmt.rename, Expr.rename_nil]
  | .define _ _ _ body, scopes => by simp [Stmt.rename, Block.renameFrom_nil body]
  | .branch _ body, scopes => by simp [Stmt.rename, Expr.rename_nil, Block.renameFrom_nil body]
  | .switch _ cases, scopes => by simp [Stmt.rename, Expr.rename_nil, Case.renameFrom_nil cases]
  | .loop pre _ post body, scopes => by
      simp [Stmt.rename, Expr.rename_nil, Block.renameFrom_nil pre, Block.renameFrom_nil post,
        Block.renameFrom_nil body]
  | .break, _ => rfl
  | .continue, _ => rfl
  | .leave, _ => rfl
  | .block body, scopes => by simp [Stmt.rename, Block.renameFrom_nil body]

theorem Block.renameFrom_nil :
    (b : List Stmt) → (scopes : Scopes) → (Block.renameFrom [] b scopes).1 = b
  | [], _ => rfl
  | s :: rest, scopes => by
      simp [Block.renameFrom, Stmt.rename_nil s, Block.renameFrom_nil rest]

theorem Case.renameFrom_nil :
    (cases : List Case) → (scopes : Scopes) → (Case.renameFrom [] cases scopes).1 = cases
  | [], _ => rfl
  | ⟨_, body⟩ :: rest, scopes => by
      simp [Case.renameFrom, Block.renameFrom_nil body, Case.renameFrom_nil rest]

end

end SwitchHoist
