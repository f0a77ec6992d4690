import SwitchHoist.Program.Basic

/-!
# Equality of program trees is decidable

The trees are nested through lists, so the tests are written out side by side
with those for lists of trees.  Each test is proved to be equality, and the
instances at the end follow.
-/

namespace SwitchHoist

mutual

/-- The test for equal expressions. -/
def Expr.same : Expr → Expr → Bool
  | .literal a, .literal b => decide (a = b)
  | .variable a, .variable b => decide (a = b)
  | .call f as, .call g bs => decide (f = g) && Expr.sameList as bs
  | _, _ => false

/-- The test for equal lists of expressions. -/
def Expr.sameList : List Expr → List Expr → Bool
  | [], [] => true
  | a :: as, b :: bs => a.same b && Expr.sameList as bs
  | _, _ => false

end

mutual

theorem Expr.same_iff : (a b : Expr) → (a.same b = true ↔ a = b)
  | .literal _, b => by cases b <;> simp [Expr.same]
  | .variable _, b => by cases b <;> simp [Expr.same]
  | .call _ as, b => by cases b <;> simp [Expr.same, Expr.sameList_iff as]

theorem Expr.sameList_iff : (as bs : List Expr) → (Expr.sameList as bs = true ↔ as = bs)
  | [], bs => by cases bs <;> simp [Expr.sameList]
  | a :: as, bs => by
      cases bs <;> simp [Expr.sameList, Expr.same_iff a, Expr.sameList_iff as]

end

instance : DecidableEq Expr := fun a b =>
  decidable_of_iff (a.same b = true) (Expr.same_iff a b)

mutual

/-- The test for equal statements. -/
def Stmt.same : Stmt → Stmt → Bool
  | .expr a, .expr b => decide (a = b)
  | .assign xs a, .assign ys b => decide (xs = ys) && decide (a = b)
  | .declare xs a, .declare ys b => decide (xs = ys) && decide (a = b)
  | .define f ps rs a, .define g qs ts b =>
      decide (f = g) && decide (ps = qs) && decide (rs = ts) && Block.same a b
  | .branch c a, .branch d b => decide (c = d) && Block.same a b
  | .switch e as, .switch f bs => decide (e = f) && Case.sameList as bs
  | .loop p c q a, .loop p' d q' b =>
      Block.same p p' && decide (c = d) && Block.same q q' && Block.same a b
  | .break, .break => true
  | .continue, .continue => true
  | .leave, .leave => true
  | .block a, .block b => Block.same a b
  | _, _ => false

/-- The test for equal blocks. -/
def Block.same : List Stmt → List Stmt → Bool
  | [], [] => true
  | a :: as, b :: bs => a.same b && Block.same as bs
  | _, _ => false

/-- The test for equal lists of cases. -/
def Case.sameList : List Case → List Case → Bool
  | [], [] => true
  | ⟨v, a⟩ :: as, ⟨w, b⟩ :: bs =>
      decide (v = w) && Block.same a b && Case.sameList as bs
  | _, _ => false

end

mutual

theorem Stmt.same_iff : (a b : Stmt) → (a.same b = true ↔ a = b)
  | .expr _, b => by cases b <;> simp [Stmt.same]
  | .assign _ _, b => by cases b <;> simp [Stmt.same]
  | .declare _ _, b => by cases b <;> simp [Stmt.same]
  | .define _ _ _ body, b => by
      cases b <;> simp [Stmt.same, Block.same_iff body, and_assoc]
  | .branch _ body, b => by cases b <;> simp [Stmt.same, Block.same_iff body]
  | .switch _ cases, b => by cases b <;> simp [Stmt.same, Case.sameList_iff cases]
  | .loop pre _ post body, b => by
      cases b <;>
        simp [Stmt.same, Block.same_iff pre, Block.same_iff post, Block.same_iff body, and_assoc]
  | .break, b => by cases b <;> simp [Stmt.same]
  | .continue, b => by cases b <;> simp [Stmt.same]
  | .leave, b => by cases b <;> simp [Stmt.same]
  | .block body, b => by cases b <;> simp [Stmt.same, Block.same_iff body]

theorem Block.same_iff : (as bs : List Stmt) → (Block.same as bs = true ↔ as = bs)
  | [], bs => by cases bs <;> simp [Block.same]
  | a :: as, bs => by cases bs <;> simp [Block.same, Stmt.same_iff a, Block.same_iff as]

theorem Case.sameList_iff : (as bs : List Case) → (Case.sameList as bs = true ↔ as = bs)
  | [], bs => by cases bs <;> simp [Case.sameList]
  | ⟨_, body⟩ :: as, bs => by
      rcases bs with _ | ⟨⟨_, _⟩, _⟩ <;>
        simp [Case.sameList, Block.same_iff body, Case.sameList_iff as]

end

instance : DecidableEq Stmt := fun a b =>
  decidable_of_iff (a.same b = true) (Stmt.same_iff a b)

instance : DecidableEq Case := fun a b =>
  decidable_of_iff (Case.sameList [a] [b] = true) (by simp [Case.sameList_iff])

end SwitchHoist
