import Mathlib.Data.List.Forall2
import SwitchHoist.Proofs.Matching
import SwitchHoist.Proofs.ScopesRestored

/-!
# Walks below other scopes

A walk that starts below other scopes meets the same occurrences with the same scopes
opened on the way.  So what is free in statements follows from what is free in their
parts and what the parts declare.
-/

namespace SwitchHoist

/-- The scopes bind some names on top of a base. -/
def Scopes.Over (base : Scopes) (inner : Names) (scopes : Scopes) : Prop :=
  ∀ y, scopes.binds y = true ↔ y ∈ inner ∨ base.binds y = true

namespace Scopes.Over

variable {base scopes : Scopes} {inner : Names}

theorem refl (scopes : Scopes) : scopes.Over [] scopes := by
  intro y
  simp

theorem push (h : base.Over inner scopes) : base.Over inner scopes.push := by
  intro y
  rw [binds_push]
  exact h y

theorem bindAll (h : base.Over inner scopes) (xs : List String) :
    base.Over (xs ++ inner) (scopes.bindAll xs) := by
  intro y
  rw [binds_bindAll, Bool.or_eq_true, h y, List.contains_iff_mem, List.mem_append, or_assoc]

end Scopes.Over

/-- The same occurrence below two bases. -/
structure Occurrence.Alike (base base' : Scopes) (o o' : Occurrence) : Prop where
  name : o.name = o'.name
  access : o.access = o'.access
  scopes : ∃ inner, base.Over inner o.scopes ∧ base'.Over inner o'.scopes

section Walk

variable {base base' : Scopes}

theorem forall₂_map_alike {inner : Names} {scopes scopes' : Scopes} (h : base.Over inner scopes)
    (h' : base'.Over inner scopes') (access : Access) (xs : List String) :
    List.Forall₂ (Occurrence.Alike base base')
      (xs.map fun x => ⟨x, access, scopes⟩) (xs.map fun x => ⟨x, access, scopes'⟩) := by
  induction xs with
  | nil => exact .nil
  | cons x xs ih => exact .cons ⟨rfl, rfl, inner, h, h'⟩ ih

theorem Expr.forall₂_readsOfOption {inner : Names} {scopes scopes' : Scopes}
    (h : base.Over inner scopes) (h' : base'.Over inner scopes') (e : Option Expr) :
    List.Forall₂ (Occurrence.Alike base base') (Expr.readsOfOption e scopes)
      (Expr.readsOfOption e scopes') := by
  cases e with
  | none => exact .nil
  | some e => exact forall₂_map_alike h h' .read e.variableNames

mutual

/-- Two walks through a statement, with the same names bound on top of two bases. -/
theorem Stmt.forall₂_walk : (s : Stmt) → {inner : Names} → {scopes scopes' : Scopes} →
    base.Over inner scopes → base'.Over inner scopes' →
    List.Forall₂ (Occurrence.Alike base base') (s.walk scopes).1 (s.walk scopes').1
  | .expr e, _, _, _, h, h' => forall₂_map_alike h h' .read e.variableNames
  | .assign targets e, _, _, _, h, h' =>
      List.rel_append (forall₂_map_alike h h' .read e.variableNames)
        (forall₂_map_alike h h' .write targets)
  | .declare _ e, _, _, _, h, h' => Expr.forall₂_readsOfOption h h' e
  | .define _ _ _ body, _, _, _, h, h' =>
      Block.forall₂_walk body (h.push.bindAll _).push (h'.push.bindAll _).push
  | .branch c body, _, _, _, h, h' =>
      List.rel_append (forall₂_map_alike h h' .read c.variableNames)
        (Block.forall₂_walk body h.push h'.push)
  | .switch e cases, _, _, _, h, h' =>
      List.rel_append (forall₂_map_alike h h' .read e.variableNames)
        (Case.forall₂_walk cases h h')
  | .loop pre c post body, _, _, _, h, h' => by
      have hpre := Block.forall₂_walk pre h.push h'.push
      have hafter := h.push.bindAll (Block.declared pre)
      have hafter' := h'.push.bindAll (Block.declared pre)
      simp only [Stmt.walk, Block.walk_snd, Scopes.pop_bindAll_push]
      exact List.rel_append (List.rel_append (List.rel_append hpre
        (forall₂_map_alike hafter hafter' .read c.variableNames))
        (Block.forall₂_walk post hafter.push hafter'.push))
        (Block.forall₂_walk body hafter.push hafter'.push)
  | .break, _, _, _, _, _ => .nil
  | .continue, _, _, _, _, _ => .nil
  | .leave, _, _, _, _, _ => .nil
  | .block body, _, _, _, h, h' => Block.forall₂_walk body h.push h'.push

theorem Block.forall₂_walk : (b : List Stmt) → {inner : Names} → {scopes scopes' : Scopes} →
    base.Over inner scopes → base'.Over inner scopes' →
    List.Forall₂ (Occurrence.Alike base base') (Block.walk b scopes).1 (Block.walk b scopes').1
  | [], _, _, _, _, _ => .nil
  | s :: rest, _, _, _, h, h' => by
      simp only [Block.walk, Stmt.walk_snd]
      exact List.rel_append (Stmt.forall₂_walk s h h')
        (Block.forall₂_walk rest (h.bindAll _) (h'.bindAll _))

theorem Case.forall₂_walk : (cases : List Case) → {inner : Names} → {scopes scopes' : Scopes} →
    base.Over inner scopes → base'.Over inner scopes' →
    List.Forall₂ (Occurrence.Alike base base') (Case.walk cases scopes).1
      (Case.walk cases scopes').1
  | [], _, _, _, _, _ => .nil
  | ⟨_, body⟩ :: rest, _, _, _, h, h' => by
      simp only [Case.walk, Block.walk_snd, Scopes.pop_bindAll_push]
      exact List.rel_append (Block.forall₂_walk body h.push h'.push)
        (Case.forall₂_walk rest h h')

end

end Walk

/-! ## Free names -/

theorem exists_mem_append {α : Type} {P : α → Prop} {xs ys : List α} :
    (∃ x ∈ xs ++ ys, P x) ↔ (∃ x ∈ xs, P x) ∨ ∃ x ∈ ys, P x := by
  simp only [List.mem_append, or_and_right, exists_or]

theorem exists_mem_of_forall₂ {α β : Type} {R : α → β → Prop} {P : α → Prop} {Q : β → Prop}
    (hPQ : ∀ x y, R x y → (P x ↔ Q y)) {xs : List α} {ys : List β} (h : List.Forall₂ R xs ys) :
    (∃ x ∈ xs, P x) ↔ ∃ y ∈ ys, Q y := by
  induction h with
  | nil => simp
  | cons hxy _ ih => rw [List.exists_mem_cons_iff, List.exists_mem_cons_iff, hPQ _ _ hxy, ih]

/-- A name is free below some scopes if it is free in the statements and no scope binds
it. -/
theorem Block.exists_free_walk (b : Block) (scopes : Scopes) (x : String) :
    (∃ o ∈ (Block.walk b scopes).1, o.isFree = true ∧ o.name = x) ↔
      x ∈ b.freeNames ∧ ¬ scopes.binds x = true := by
  -- Compare with the walk that starts below no scope at all.
  have hwalk := Block.forall₂_walk b (Scopes.Over.refl scopes) (Scopes.Over.refl .initial)
  rw [Block.mem_freeNames, exists_mem_of_forall₂ (Q := fun o =>
    (o.isFree = true ∧ o.name = x) ∧ ¬ scopes.binds x = true) ?_ hwalk]
  · simp only [Block.occurrences]
    grind
  · rintro o o' ⟨hname, -, inner, hscopes, hscopes'⟩
    have hfree := hscopes o.name
    have hfree' := hscopes' o.name
    rw [Scopes.binds_initial] at hfree'
    simp only [Occurrence.isFree, Bool.not_eq_true', ← hname]
    grind

/-- What is free in two blocks of one scope. -/
theorem Block.mem_freeNames_append {b c : Block} {x : String} :
    x ∈ Block.freeNames (b ++ c) ↔
      x ∈ b.freeNames ∨ x ∉ Block.declared b ∧ x ∈ c.freeNames := by
  rw [Block.mem_freeNames, Block.occurrences, Block.walk_append]
  rw [Block.walk_snd, exists_mem_append, Block.exists_free_walk, Block.exists_free_walk,
    Scopes.binds_bindAll, Bool.or_eq_true, Scopes.binds_initial, List.contains_iff_mem]
  simp [and_comm]

theorem Block.mem_freeNames_cons {s : Stmt} {b : Block} {x : String} :
    x ∈ Block.freeNames (s :: b) ↔
      x ∈ Block.freeNames [s] ∨ x ∉ s.declared ∧ x ∈ b.freeNames := by
  have happend := Block.mem_freeNames_append (b := [s]) (c := b) (x := x)
  rwa [List.singleton_append, Block.declared_cons, Block.declared_nil, List.append_nil] at happend

end SwitchHoist
