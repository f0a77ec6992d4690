import SwitchHoist.Proofs.OuterScopes

/-!
# Assignments from inside a statement

A statement assigns a variable declared outside it if an assignment inside it has the
variable as a target that no declaration on the way hides.  This is what the walk
finds, said along the statements.
-/

namespace SwitchHoist

mutual

/-- A statement assigns a variable declared outside it. -/
def Stmt.Assigns (x : String) : Stmt → Prop
  | .assign targets _ => x ∈ targets
  | .define _ params returns body =>
      x ∉ TypedName.names (params ++ returns) ∧ Block.Assigns x body
  | .branch _ body => Block.Assigns x body
  | .switch _ cases => Case.Assigns x cases
  | .loop pre _ post body =>
      Block.Assigns x pre ∨ x ∉ Block.declared pre ∧ (Block.Assigns x post ∨ Block.Assigns x body)
  | .block body => Block.Assigns x body
  | .expr _ | .declare .. | .break | .continue | .leave => False

/-- One of the statements of a scope assigns a variable declared outside the scope. -/
def Block.Assigns (x : String) : List Stmt → Prop
  | [] => False
  | s :: rest => s.Assigns x ∨ x ∉ s.declared ∧ Block.Assigns x rest

/-- One of some cases assigns a variable declared outside it. -/
def Case.Assigns (x : String) : List Case → Prop
  | [] => False
  | ⟨_, body⟩ :: rest => Block.Assigns x body ∨ Case.Assigns x rest

end

/-- An occurrence that assigns a variable declared outside the walk. -/
def Occurrence.Writes (x : String) (o : Occurrence) : Prop :=
  o.access = .write ∧ o.name = x ∧ o.isFree = true

theorem Expr.not_writes_reads {x : String} {e : Expr} {scopes : Scopes} :
    ¬ ∃ o ∈ e.reads scopes, o.Writes x := by
  rintro ⟨o, ho, haccess, -, -⟩
  obtain ⟨y, -, rfl⟩ := List.mem_map.mp ho
  cases haccess

theorem Expr.not_writes_readsOfOption {x : String} {e : Option Expr} {scopes : Scopes} :
    ¬ ∃ o ∈ Expr.readsOfOption e scopes, o.Writes x := by
  cases e with
  | none => simp [Expr.readsOfOption]
  | some e => exact Expr.not_writes_reads

theorem Occurrence.exists_writes_map {x : String} {scopes : Scopes} {xs : List String} :
    (∃ o ∈ xs.map (fun y => (⟨y, .write, scopes⟩ : Occurrence)), o.Writes x) ↔
      ¬ scopes.binds x = true ∧ x ∈ xs := by
  simp only [List.mem_map, exists_exists_and_eq_and, Occurrence.Writes, Occurrence.isFree,
    Bool.not_eq_true', true_and]
  grind

theorem Scopes.not_binds_bindAll {scopes : Scopes} {names : Names} {x : String} :
    ¬ (scopes.bindAll names).binds x = true ↔ ¬ scopes.binds x = true ∧ x ∉ names := by
  rw [Scopes.binds_bindAll, Bool.or_eq_true, not_or, List.contains_iff_mem]
  exact and_comm

mutual

/-- The walk through a statement finds an assignment exactly if the statement assigns
the variable and no scope around it binds the variable. -/
theorem Stmt.exists_writes_walk {x : String} : (s : Stmt) → (scopes : Scopes) →
    ((∃ o ∈ (s.walk scopes).1, o.Writes x) ↔ ¬ scopes.binds x = true ∧ s.Assigns x)
  | .expr e, scopes => by
      simp only [Stmt.walk, Stmt.Assigns, and_false, iff_false]
      exact Expr.not_writes_reads
  | .assign targets e, scopes => by
      -- The value is only read, so the assignments found are the targets.
      simp only [Stmt.walk, exists_mem_append, Expr.not_writes_reads, false_or,
        Occurrence.exists_writes_map, Stmt.Assigns]
  | .declare vars e, scopes => by
      simp only [Stmt.walk, Stmt.Assigns, and_false, iff_false]
      exact Expr.not_writes_readsOfOption
  | .define name params returns body, scopes => by
      simp only [Stmt.walk, Block.exists_writes_walk body, Scopes.binds_push,
        Scopes.not_binds_bindAll, Stmt.Assigns, and_assoc]
  | .branch c body, scopes => by
      simp only [Stmt.walk, exists_mem_append, Expr.not_writes_reads, false_or,
        Block.exists_writes_walk body, Scopes.binds_push, Stmt.Assigns]
  | .switch e cases, scopes => by
      simp only [Stmt.walk, exists_mem_append, Expr.not_writes_reads, false_or,
        Case.exists_writes_walk cases, Stmt.Assigns]
  | .loop pre c post body, scopes => by
      simp only [Stmt.walk, Block.walk_snd, Scopes.pop_bindAll_push, exists_mem_append,
        Expr.not_writes_reads, or_false, Block.exists_writes_walk pre,
        Block.exists_writes_walk post, Block.exists_writes_walk body, Scopes.binds_push,
        Scopes.not_binds_bindAll, Stmt.Assigns]
      grind
  | .break, _ => by simp [Stmt.walk, Stmt.Assigns]
  | .continue, _ => by simp [Stmt.walk, Stmt.Assigns]
  | .leave, _ => by simp [Stmt.walk, Stmt.Assigns]
  | .block body, scopes => by
      simp only [Stmt.walk, Block.exists_writes_walk body, Scopes.binds_push, Stmt.Assigns]

theorem Block.exists_writes_walk {x : String} : (b : List Stmt) → (scopes : Scopes) →
    ((∃ o ∈ (Block.walk b scopes).1, o.Writes x) ↔ ¬ scopes.binds x = true ∧ Block.Assigns x b)
  | [], _ => by simp [Block.walk, Block.Assigns]
  | s :: rest, scopes => by
      simp only [Block.walk, Stmt.walk_snd, exists_mem_append, Stmt.exists_writes_walk s,
        Block.exists_writes_walk rest, Scopes.not_binds_bindAll, Block.Assigns]
      grind

theorem Case.exists_writes_walk {x : String} : (cases : List Case) → (scopes : Scopes) →
    ((∃ o ∈ (Case.walk cases scopes).1, o.Writes x) ↔
      ¬ scopes.binds x = true ∧ Case.Assigns x cases)
  | [], _ => by simp [Case.walk, Case.Assigns]
  | ⟨_, body⟩ :: rest, scopes => by
      simp only [Case.walk, Block.walk_snd, Scopes.pop_bindAll_push, exists_mem_append,
        Block.exists_writes_walk body, Case.exists_writes_walk rest, Scopes.binds_push,
        Case.Assigns, and_or_left]

end

theorem Stmt.mem_written {s : Stmt} {x : String} : x ∈ s.written ↔ s.Assigns x := by
  have hwalk := Stmt.exists_writes_walk (x := x) s Scopes.initial
  simp only [Scopes.binds_initial, Bool.false_eq_true, not_false_eq_true, true_and] at hwalk
  rw [← hwalk]
  simp only [Stmt.written, Block.occurrences, Block.walk, List.append_nil, Occurrence.Writes,
    List.mem_map, List.mem_filter, Bool.and_eq_true, beq_iff_eq]
  grind

theorem Case.assigns_iff {x : String} {cases : List Case} :
    Case.Assigns x cases ↔ ∃ c ∈ cases, Block.Assigns x c.body := by
  induction cases with
  | nil => simp [Case.Assigns]
  | cons c cases ih =>
      obtain ⟨value, body⟩ := c
      rw [Case.Assigns, ih, List.exists_mem_cons_iff]

theorem Block.Assigns.exists_mem {x : String} {b : Block} (h : Block.Assigns x b) :
    ∃ s ∈ b, s.Assigns x := by
  induction b with
  | nil => exact h.elim
  | cons s b ih =>
      rcases h with h | ⟨-, h⟩
      · exact ⟨s, List.mem_cons_self .., h⟩
      · obtain ⟨t, ht, hassigns⟩ := ih h
        exact ⟨t, List.mem_cons_of_mem _ ht, hassigns⟩

end SwitchHoist
