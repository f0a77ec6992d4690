import SwitchHoist.Proofs.PassTaken
import SwitchHoist.Proofs.ScopesRestored
import SwitchHoist.Validity.Rules

/-!
# What holds in valid programs

Most rules for programs are about one statement at a time, at any depth.  Two of them are
what taking a prefix relies on: a switch has a case, and a declaration declares distinct
names.
-/

namespace SwitchHoist

theorem repeatsBy_eq_nil_iff {α β : Type} [DecidableEq β] {key : α → β} {seen : List β}
    {xs : List α} :
    repeatsBy key seen xs = [] ↔ (xs.map key).Nodup ∧ ∀ x ∈ xs, key x ∉ seen := by
  induction xs generalizing seen with
  | nil => simp [repeatsBy]
  | cons x xs ih =>
      rw [repeatsBy]
      split
      · next hx => simp [hx]
      · next hx =>
          rw [ih, List.map_cons, List.nodup_cons]
          grind

theorem repeats_eq_nil_iff {α : Type} [DecidableEq α] {xs : List α} :
    repeats xs = [] ↔ xs.Nodup := by
  rw [repeats, repeatsBy_eq_nil_iff, List.map_id]
  simp

section Blocks

variable {P : Stmt → Prop}

mutual

/-- A property holds of every statement if it holds of the outermost one and of the
statements in all blocks at any depth. -/
theorem Stmt.each_iff_blocks : (s : Stmt) →
    (s.Each P ↔ P s ∧ s.Each fun u => ∀ c ∈ u.blocks, ∀ t ∈ c, P t)
  | .define _ _ _ body => by
      rw [Stmt.each_define, Stmt.each_define, Block.each_iff_blocks body]
      simp only [Stmt.blocks, List.forall_mem_singleton]
  | .branch _ body => by
      rw [Stmt.each_branch, Stmt.each_branch, Block.each_iff_blocks body]
      simp only [Stmt.blocks, List.forall_mem_singleton]
  | .switch _ cases => by
      rw [Stmt.each_switch, Stmt.each_switch, Case.each_iff_blocks cases]
      simp only [Stmt.blocks]
  | .loop pre _ post body => by
      rw [Stmt.each_loop, Stmt.each_loop, Block.each_iff_blocks pre, Block.each_iff_blocks post,
        Block.each_iff_blocks body]
      simp only [Stmt.blocks, List.forall_mem_cons]
      tauto
  | .block body => by
      rw [Stmt.each_block, Stmt.each_block, Block.each_iff_blocks body]
      simp only [Stmt.blocks, List.forall_mem_singleton]
  | .expr _ => by simp [Stmt.Each, Stmt.subtree, Stmt.blocks]
  | .assign .. => by simp [Stmt.Each, Stmt.subtree, Stmt.blocks]
  | .declare .. => by simp [Stmt.Each, Stmt.subtree, Stmt.blocks]
  | .break => by simp [Stmt.Each, Stmt.subtree, Stmt.blocks]
  | .continue => by simp [Stmt.Each, Stmt.subtree, Stmt.blocks]
  | .leave => by simp [Stmt.Each, Stmt.subtree, Stmt.blocks]

theorem Block.each_iff_blocks : (b : List Stmt) →
    (Block.Each P b ↔
      (∀ t ∈ b, P t) ∧ Block.Each (fun u => ∀ c ∈ u.blocks, ∀ t ∈ c, P t) b)
  | [] => by simp
  | s :: rest => by
      rw [Block.each_cons, Block.each_cons, Stmt.each_iff_blocks s, Block.each_iff_blocks rest,
        List.forall_mem_cons, and_and_and_comm]

theorem Case.each_iff_blocks : (cases : List Case) →
    (Case.Each P cases ↔ (∀ c ∈ cases.map Case.body, ∀ t ∈ c, P t) ∧
      Case.Each (fun u => ∀ c ∈ u.blocks, ∀ t ∈ c, P t) cases)
  | [] => by simp
  | ⟨_, body⟩ :: rest => by
      rw [Case.each_cons, Case.each_cons, Block.each_iff_blocks body, Case.each_iff_blocks rest,
        List.map_cons, List.forall_mem_cons, and_and_and_comm]

end

end Blocks

/-- The blocks inside a statement define every function once. -/
def Stmt.DefinesOnce (s : Stmt) : Prop :=
  ∀ c ∈ s.blocks, (Block.functions c).Nodup

/-- The rules of a program, one statement at a time but for those about control flow and
about the functions of the outermost block. -/
theorem Block.isValid_iff {b : Block} :
    b.IsValid ↔ Block.Each (fun s => s.nameViolations = []) b ∧
      Block.Each (fun s => s.switchViolations = []) b ∧
      Block.Each (fun s => s.declarationViolations = []) b ∧
      Block.Each Stmt.DefinesOnce b ∧ (Block.functions b).Nodup ∧
      Block.flowViolations b Place.outermost = [] := by
  have hblock : ∀ c : Block, c.declarationViolations = [] ↔
      (Block.functions c).Nodup ∧ ∀ t ∈ c, t.declarationViolations = [] := by
    intro c
    rw [declarationViolations, List.append_eq_nil_iff, List.map_eq_nil_iff, repeats_eq_nil_iff,
      List.flatMap_eq_nil_iff]
  -- A block complains of its functions and of its statements one by one; the statements in all
  -- blocks are all statements but the outermost.
  have hinner : (∀ c ∈ (Block.subtrees b).flatMap Stmt.blocks, c.declarationViolations = []) ↔
      Block.Each (fun u => ∀ c ∈ u.blocks, ∀ t ∈ c, t.declarationViolations = []) b ∧
        Block.Each Stmt.DefinesOnce b := by
    simp only [hblock, List.forall_mem_flatMap, Block.Each, Stmt.DefinesOnce]
    grind
  simp only [IsValid, violations, List.append_eq_nil_iff, List.flatMap_eq_nil_iff, allBlocks,
    List.forall_mem_cons, hinner, hblock b]
  rw [Block.each_iff_blocks (P := fun s => s.declarationViolations = [])]
  simp only [Block.Each]
  tauto

/-- That declarations declare distinct names is stable. -/
theorem Stmt.stable_nodup : Stmt.Stable fun s => s.declared.Nodup where
  resembles := by
    intro s t h hs
    cases h <;> exact hs
  rename := by
    intro ρ s scopes _ hs
    rw [Stmt.declared_rename]
    exact hs

namespace Block.IsValid

variable {b : Block}

theorem each_switch (h : b.IsValid) : Block.Each (fun s => s.switchViolations = []) b :=
  (Block.isValid_iff.mp h).2.1

theorem each_declaration (h : b.IsValid) : Block.Each (fun s => s.declarationViolations = []) b :=
  (Block.isValid_iff.mp h).2.2.1

/-- A switch in a valid program has a case. -/
theorem hasCases (h : b.IsValid) : Block.Each Stmt.HasCases b := by
  intro s hs scrutinee heq
  have hviolations := h.each_switch s hs
  rw [heq] at hviolations
  cases hviolations

/-- A declaration in a valid program declares distinct names. -/
theorem nodup (h : b.IsValid) : Block.Each (fun s => s.declared.Nodup) b := by
  intro s hs
  have hviolations := h.each_declaration s hs
  cases s with
  | declare vars e =>
      rw [Stmt.declarationViolations, List.map_eq_nil_iff] at hviolations
      exact repeats_eq_nil_iff.mp hviolations
  | _ => exact List.nodup_nil

end Block.IsValid

end SwitchHoist
