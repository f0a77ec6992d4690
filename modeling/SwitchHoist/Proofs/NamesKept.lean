import SwitchHoist.Proofs.CaseMeaning
import SwitchHoist.Proofs.ValidPrograms

/-!
# The pass binds no new names

Behind the pass, a program binds names that it bound in front of it, each no more often.
-/

namespace SwitchHoist

/-! ## Bound names -/

/-- The names that a statement binds itself, as variables or as parameters. -/
def Stmt.binders : Stmt → List String
  | .declare vars _ => TypedName.names vars
  | .define _ params returns _ => TypedName.names (params ++ returns)
  | _ => []

/-- The names bound in a statement at any depth. -/
def Stmt.bound (s : Stmt) : List String :=
  s.subtree.flatMap Stmt.binders

/-- The names bound in a block at any depth. -/
def Block.bound (b : Block) : List String :=
  (Block.subtrees b).flatMap Stmt.binders

/-- The names bound in some cases at any depth. -/
def Case.bound (cases : List Case) : List String :=
  (Case.subtrees cases).flatMap Stmt.binders

@[simp] theorem Block.bound_nil : Block.bound [] = [] := rfl

@[simp] theorem Block.bound_cons (s : Stmt) (b : Block) :
    Block.bound (s :: b) = s.bound ++ Block.bound b := by
  rw [Block.bound, Block.subtrees, List.flatMap_append]
  rfl

@[simp] theorem Block.bound_append (b c : Block) :
    Block.bound (b ++ c) = Block.bound b ++ Block.bound c := by
  rw [Block.bound, Block.subtrees_append, List.flatMap_append]
  rfl

@[simp] theorem Case.bound_nil : Case.bound [] = [] := rfl

@[simp] theorem Case.bound_cons (c : Case) (cases : List Case) :
    Case.bound (c :: cases) = Block.bound c.body ++ Case.bound cases := by
  obtain ⟨value, body⟩ := c
  rw [Case.bound, Case.subtrees, List.flatMap_append]
  rfl

@[simp] theorem Stmt.bound_define (name : String) (params returns : List TypedName)
    (body : Block) :
    (Stmt.define name params returns body).bound =
      TypedName.names (params ++ returns) ++ Block.bound body := rfl

@[simp] theorem Stmt.bound_branch (c : Expr) (body : Block) :
    (Stmt.branch c body).bound = Block.bound body := rfl

@[simp] theorem Stmt.bound_switch (e : Expr) (cases : List Case) :
    (Stmt.switch e cases).bound = Case.bound cases := rfl

@[simp] theorem Stmt.bound_loop (pre : Block) (c : Expr) (post body : Block) :
    (Stmt.loop pre c post body).bound = Block.bound pre ++ Block.bound post ++ Block.bound body := by
  simp only [Stmt.bound, Stmt.subtree, List.flatMap_cons, List.flatMap_append, Stmt.binders,
    List.nil_append]
  rfl

@[simp] theorem Stmt.bound_block (body : Block) :
    (Stmt.block body).bound = Block.bound body := rfl

theorem Stmt.mem_bound_of_declared {s : Stmt} {x : String} (hx : x ∈ s.declared) :
    x ∈ s.bound := by
  cases s with
  | declare vars e => exact List.mem_append_left _ hx
  | _ => cases hx

theorem Block.mem_bound_of_declared {b : Block} {x : String} (hx : x ∈ Block.declared b) :
    x ∈ Block.bound b := by
  induction b with
  | nil => cases hx
  | cons s rest ih =>
      rw [Block.bound_cons]
      rcases List.mem_append.mp hx with hx | hx
      · exact List.mem_append_left _ (Stmt.mem_bound_of_declared hx)
      · exact List.mem_append_right _ (ih hx)

mutual

/-- A renaming binds nothing else. -/
theorem Stmt.bound_rename (ρ : Renaming) : (s : Stmt) → (scopes : Scopes) →
    (s.rename ρ scopes).1.bound = s.bound
  | .define _ _ _ body, _ => by
      simp only [Stmt.rename, Stmt.bound_define, Block.bound_renameFrom ρ body]
  | .branch _ body, _ => by
      simp only [Stmt.rename, Stmt.bound_branch, Block.bound_renameFrom ρ body]
  | .switch _ cases, _ => by
      simp only [Stmt.rename, Stmt.bound_switch, Case.bound_renameFrom ρ cases]
  | .loop pre _ post body, _ => by
      simp only [Stmt.rename, Stmt.bound_loop, Block.bound_renameFrom ρ pre,
        Block.bound_renameFrom ρ post, Block.bound_renameFrom ρ body]
  | .block body, _ => by
      simp only [Stmt.rename, Stmt.bound_block, Block.bound_renameFrom ρ body]
  | .expr _, _ => rfl
  | .assign .., _ => rfl
  | .declare .., _ => rfl
  | .break, _ => rfl
  | .continue, _ => rfl
  | .leave, _ => rfl

theorem Block.bound_renameFrom (ρ : Renaming) : (b : List Stmt) → (scopes : Scopes) →
    Block.bound (Block.renameFrom ρ b scopes).1 = Block.bound b
  | [], _ => rfl
  | s :: rest, _ => by
      rw [Block.renameFrom, Block.bound_cons, Block.bound_cons, Stmt.bound_rename ρ s,
        Block.bound_renameFrom ρ rest]

theorem Case.bound_renameFrom (ρ : Renaming) : (cases : List Case) → (scopes : Scopes) →
    Case.bound (Case.renameFrom ρ cases scopes).1 = Case.bound cases
  | [], _ => rfl
  | ⟨_, body⟩ :: rest, _ => by
      rw [Case.renameFrom, Case.bound_cons, Case.bound_cons, Block.bound_renameFrom ρ body,
        Case.bound_renameFrom ρ rest]

end

/-! ## Bound names behind the pass -/

section Bound

variable {equivalent : Equivalence}

/-- A prefix and what it leaves behind bind what the cases bound. -/
theorem Case.bound_hoistPrefix {live : Names} {e : Expr} {cases cases' : List Case}
    {hoisted : Block} (h : hoistPrefix equivalent live e cases = .ok (hoisted, cases')) :
    (Block.bound hoisted ++ Case.bound cases').Sublist (Case.bound cases) := by
  obtain ⟨first, others, rest, others', rfl, hfirst, rfl, htrimmed⟩ := hoistPrefix_trimmed h
  have hothers : (Case.bound others').Sublist (Case.bound others) := by
    clear h
    induction htrimmed with
    | nil => exact List.Sublist.refl _
    | cons hc _ ih =>
        obtain ⟨front, own, ρ, hbody, hleft, -⟩ := hc.body
        rw [Case.bound_cons, Case.bound_cons, hbody, hleft, Block.bound_append, Renaming.stmts,
          Block.bound_renameFrom]
        exact (List.sublist_append_right _ _).append ih
  rw [Case.bound_cons, Case.bound_cons, hfirst, Block.bound_append, ← List.append_assoc]
  exact (List.Sublist.refl _).append hothers

theorem Stmt.bound_hoistOut {after front : Block} {live : Names} {s : Stmt}
    (h : s.hoistOut equivalent after live = .ok front) :
    (Block.bound front).Sublist s.bound := by
  rcases Stmt.hoistOut_eq_ok h with ⟨-, rfl⟩ | ⟨e, cases, hoisted, cases', rfl, hhoist, rfl⟩
  · rw [Block.bound_cons, Block.bound_nil, List.append_nil]
  · rw [Block.bound_append, Block.bound_cons, Block.bound_nil, List.append_nil,
      Stmt.bound_switch, Stmt.bound_switch]
    exact Case.bound_hoistPrefix hhoist

mutual

theorem Stmt.Hoists.bound : {s s' : Stmt} → s.Hoists equivalent s' → s'.bound.Sublist s.bound
  | _, _, .define name params returns hbody => (List.Sublist.refl _).append hbody.bound
  | _, _, .branch _ hbody => hbody.bound
  | _, _, .switch _ hcases => hcases.bound
  | _, _, .loop _ hpre hpost hbody => by
      rw [Stmt.bound_loop, Stmt.bound_loop]
      exact (hpre.bound.append hpost.bound).append hbody.bound
  | _, _, .block hbody => hbody.bound
  | _, _, .same _ => List.Sublist.refl _

/-- The pass binds what was bound, in the same order and no more often. -/
theorem Block.Hoists.bound : {live : Names} → {b b' : List Stmt} →
    Block.Hoists equivalent live b b' → (Block.bound b').Sublist (Block.bound b)
  | _, _, _, .nil => List.Sublist.refl _
  | _, _, _, .cons hs hfront hrest => by
      rw [Block.bound_append, Block.bound_cons]
      exact ((Stmt.bound_hoistOut hfront).trans hs.bound).append hrest.bound

theorem Case.Hoists.bound : {cases cases' : List Case} → Case.Hoists equivalent cases cases' →
    (Case.bound cases').Sublist (Case.bound cases)
  | _, _, .nil => List.Sublist.refl _
  | _, _, .cons _ hbody hrest => by
      rw [Case.bound_cons, Case.bound_cons]
      exact hbody.bound.append hrest.bound

end

end Bound

end SwitchHoist
