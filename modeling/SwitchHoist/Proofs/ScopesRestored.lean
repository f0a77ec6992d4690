import SwitchHoist.Proofs.Matching
import SwitchHoist.Renaming

/-!
# Scopes are restored

A walk and a renaming both carry the scopes around a place through the statements
before it.  Whatever a statement opens inside it closes again: behind it, the
innermost scope has grown by the names it declares, of which a renaming records
those that it maps, and nothing else has changed.
-/

namespace SwitchHoist

namespace Scopes

@[simp] theorem bindAll_nil (scopes : Scopes) : scopes.bindAll [] = scopes := rfl

@[simp] theorem bindAll_cons (x : String) (xs : List String) (scopes : Scopes) :
    scopes.bindAll (x :: xs) = (scopes.bind x).bindAll xs := rfl

theorem bindAll_append (xs ys : List String) (scopes : Scopes) :
    scopes.bindAll (xs ++ ys) = (scopes.bindAll xs).bindAll ys := by
  simp [bindAll]

/-- Binding names in an open scope changes that scope only. -/
theorem bindAll_frame (xs : List String) (frame : Names) (outer : List Names) :
    (⟨frame :: outer⟩ : Scopes).bindAll xs = ⟨(xs.reverse ++ frame) :: outer⟩ := by
  induction xs generalizing frame with
  | nil => rfl
  | cons x xs ih =>
      rw [bindAll_cons, bind, ih]
      simp

/-- What was bound since a scope was opened goes when it is closed. -/
@[simp] theorem pop_bindAll_push (xs : List String) (scopes : Scopes) :
    (scopes.push.bindAll xs).pop = scopes := by
  rw [push, bindAll_frame]
  rfl

end Scopes

mutual

/-- A walk through a statement leaves its declared names bound, and nothing else. -/
theorem Stmt.walk_snd : (s : Stmt) → (scopes : Scopes) →
    (s.walk scopes).2 = scopes.bindAll s.declared
  | .expr _, _ => rfl
  | .assign _ _, _ => rfl
  | .declare _ _, _ => rfl
  | .define _ _ _ body, _ => by simp [Stmt.walk, Stmt.declared, Block.walk_snd body]
  | .branch _ body, _ => by simp [Stmt.walk, Stmt.declared, Block.walk_snd body]
  | .switch _ cases, _ => by simp [Stmt.walk, Stmt.declared, Case.walk_snd cases]
  | .loop pre _ post body, _ => by
      simp [Stmt.walk, Stmt.declared, Block.walk_snd pre, Block.walk_snd post, Block.walk_snd body]
  | .break, _ => rfl
  | .continue, _ => rfl
  | .leave, _ => rfl
  | .block body, _ => by simp [Stmt.walk, Stmt.declared, Block.walk_snd body]

theorem Block.walk_snd : (b : List Stmt) → (scopes : Scopes) →
    (Block.walk b scopes).2 = scopes.bindAll (Block.declared b)
  | [], _ => rfl
  | s :: rest, _ => by
      simp [Block.walk, Stmt.walk_snd s, Block.walk_snd rest, Scopes.bindAll_append]

theorem Case.walk_snd : (cases : List Case) → (scopes : Scopes) →
    (Case.walk cases scopes).2 = scopes
  | [], _ => rfl
  | ⟨_, body⟩ :: rest, _ => by simp [Case.walk, Block.walk_snd body, Case.walk_snd rest]

end

namespace Renaming

theorem declare_eq (ρ : Renaming) (vars : List TypedName) (scopes : Scopes) :
    ρ.declare vars scopes = scopes.bindAll ((TypedName.names vars).filter ρ.maps) := rfl

theorem declare_append (ρ : Renaming) (vars vars' : List TypedName) (scopes : Scopes) :
    ρ.declare vars' (ρ.declare vars scopes) = ρ.declare (vars ++ vars') scopes := by
  simp [declare_eq, TypedName.names, Scopes.bindAll_append]

end Renaming

mutual

/-- A renaming of a statement leaves its mapped declared names bound, and nothing
else. -/
theorem Stmt.rename_snd (ρ : Renaming) : (s : Stmt) → (scopes : Scopes) →
    (s.rename ρ scopes).2 = scopes.bindAll (s.declared.filter ρ.maps)
  | .expr _, _ => rfl
  | .assign _ _, _ => rfl
  | .declare _ _, _ => rfl
  | .define _ _ _ body, _ => by
      simp [Stmt.rename, Stmt.declared, Block.renameFrom_snd ρ body, Renaming.declare_eq,
        ← Scopes.bindAll_append]
  | .branch _ body, _ => by simp [Stmt.rename, Stmt.declared, Block.renameFrom_snd ρ body]
  | .switch _ cases, _ => by simp [Stmt.rename, Stmt.declared, Case.renameFrom_snd ρ cases]
  | .loop pre _ post body, _ => by
      simp [Stmt.rename, Stmt.declared, Block.renameFrom_snd ρ pre, Block.renameFrom_snd ρ post,
        Block.renameFrom_snd ρ body]
  | .break, _ => rfl
  | .continue, _ => rfl
  | .leave, _ => rfl
  | .block body, _ => by simp [Stmt.rename, Stmt.declared, Block.renameFrom_snd ρ body]

theorem Block.renameFrom_snd (ρ : Renaming) : (b : List Stmt) → (scopes : Scopes) →
    (Block.renameFrom ρ b scopes).2 = scopes.bindAll ((Block.declared b).filter ρ.maps)
  | [], _ => rfl
  | s :: rest, _ => by
      simp [Block.renameFrom, Stmt.rename_snd ρ s, Block.renameFrom_snd ρ rest,
        Scopes.bindAll_append]

theorem Case.renameFrom_snd (ρ : Renaming) : (cases : List Case) → (scopes : Scopes) →
    (Case.renameFrom ρ cases scopes).2 = scopes
  | [], _ => rfl
  | ⟨_, body⟩ :: rest, _ => by
      simp [Case.renameFrom, Block.renameFrom_snd ρ body, Case.renameFrom_snd ρ rest]

end

/-- A renaming changes no declared name. -/
@[simp] theorem Stmt.declared_rename (ρ : Renaming) (s : Stmt) (scopes : Scopes) :
    (s.rename ρ scopes).1.declared = s.declared := by
  cases s <;> rfl

@[simp] theorem Block.declared_renameFrom (ρ : Renaming) (b : Block) (scopes : Scopes) :
    Block.declared (Block.renameFrom ρ b scopes).1 = Block.declared b := by
  induction b generalizing scopes with
  | nil => rfl
  | cons s rest ih => simp [Block.renameFrom, ih]

end SwitchHoist
