import SwitchHoist.Proofs.Assignments

/-!
# Variables used from outside a statement

A statement uses a variable declared outside it if it reads or assigns the variable where
no declaration on the way hides it.  These are the names that the walk finds free, said
along the statements.  Walks through statements that match meet occurrences that correspond,
one by one, so such statements use variables that stand for each other.
-/

namespace SwitchHoist

mutual

/-- A statement uses a variable declared outside it. -/
def Stmt.Uses (x : String) : Stmt → Prop
  | .expr e => x ∈ e.variableNames
  | .assign targets e => x ∈ e.variableNames ∨ x ∈ targets
  | .declare _ none => False
  | .declare _ (some e) => x ∈ e.variableNames
  | .define _ params returns body =>
      x ∉ TypedName.names (params ++ returns) ∧ Block.Uses x body
  | .branch c body => x ∈ c.variableNames ∨ Block.Uses x body
  | .switch e cases => x ∈ e.variableNames ∨ Case.Uses x cases
  | .loop pre c post body =>
      Block.Uses x pre ∨
        x ∉ Block.declared pre ∧ (x ∈ c.variableNames ∨ Block.Uses x post ∨ Block.Uses x body)
  | .block body => Block.Uses x body
  | .break | .continue | .leave => False

/-- The statements of a scope use a variable declared outside the scope. -/
def Block.Uses (x : String) : List Stmt → Prop
  | [] => False
  | s :: rest => s.Uses x ∨ x ∉ s.declared ∧ Block.Uses x rest

/-- One of some cases uses a variable declared outside it. -/
def Case.Uses (x : String) : List Case → Prop
  | [] => False
  | ⟨_, body⟩ :: rest => Block.Uses x body ∨ Case.Uses x rest

end

/-- An occurrence of a variable declared outside the walk. -/
def Occurrence.Refers (x : String) (o : Occurrence) : Prop :=
  o.isFree = true ∧ o.name = x

section Walk

variable {x : String}

theorem Occurrence.exists_refers_map {access : Access} {scopes : Scopes} {xs : List String} :
    (∃ o ∈ xs.map (fun y => (⟨y, access, scopes⟩ : Occurrence)), o.Refers x) ↔
      ¬ scopes.binds x = true ∧ x ∈ xs := by
  simp only [List.mem_map, exists_exists_and_eq_and, Occurrence.Refers, Occurrence.isFree,
    Bool.not_eq_true']
  grind

theorem Expr.exists_refers_reads {e : Expr} {scopes : Scopes} :
    (∃ o ∈ e.reads scopes, o.Refers x) ↔ ¬ scopes.binds x = true ∧ x ∈ e.variableNames :=
  Occurrence.exists_refers_map

mutual

/-- The walk through a statement refers to a variable exactly if the statement uses the
variable and no scope around it binds the variable. -/
theorem Stmt.exists_refers_walk : (s : Stmt) → (scopes : Scopes) →
    ((∃ o ∈ (s.walk scopes).1, o.Refers x) ↔ ¬ scopes.binds x = true ∧ s.Uses x)
  | .expr e, scopes => Expr.exists_refers_reads
  | .assign targets e, scopes => by
      simp only [Stmt.walk, exists_mem_append, Expr.exists_refers_reads,
        Occurrence.exists_refers_map, Stmt.Uses, and_or_left]
  | .declare vars none, scopes => by simp [Stmt.walk, Expr.readsOfOption, Stmt.Uses]
  | .declare vars (some e), scopes => Expr.exists_refers_reads
  | .define name params returns body, scopes => by
      simp only [Stmt.walk, Block.exists_refers_walk body, Scopes.binds_push,
        Scopes.not_binds_bindAll, Stmt.Uses, and_assoc]
  | .branch c body, scopes => by
      simp only [Stmt.walk, exists_mem_append, Expr.exists_refers_reads,
        Block.exists_refers_walk body, Scopes.binds_push, Stmt.Uses, and_or_left]
  | .switch e cases, scopes => by
      simp only [Stmt.walk, exists_mem_append, Expr.exists_refers_reads,
        Case.exists_refers_walk cases, Stmt.Uses, and_or_left]
  | .loop pre c post body, scopes => by
      simp only [Stmt.walk, Block.walk_snd, Scopes.pop_bindAll_push, exists_mem_append,
        Expr.exists_refers_reads, Block.exists_refers_walk pre, Block.exists_refers_walk post,
        Block.exists_refers_walk body, Scopes.binds_push, Scopes.not_binds_bindAll, Stmt.Uses]
      grind
  | .break, _ => by simp [Stmt.walk, Stmt.Uses]
  | .continue, _ => by simp [Stmt.walk, Stmt.Uses]
  | .leave, _ => by simp [Stmt.walk, Stmt.Uses]
  | .block body, scopes => by
      simp only [Stmt.walk, Block.exists_refers_walk body, Scopes.binds_push, Stmt.Uses]

theorem Block.exists_refers_walk : (b : List Stmt) → (scopes : Scopes) →
    ((∃ o ∈ (Block.walk b scopes).1, o.Refers x) ↔ ¬ scopes.binds x = true ∧ Block.Uses x b)
  | [], _ => by simp [Block.walk, Block.Uses]
  | s :: rest, scopes => by
      simp only [Block.walk, Stmt.walk_snd, exists_mem_append, Stmt.exists_refers_walk s,
        Block.exists_refers_walk rest, Scopes.not_binds_bindAll, Block.Uses]
      grind

theorem Case.exists_refers_walk : (cases : List Case) → (scopes : Scopes) →
    ((∃ o ∈ (Case.walk cases scopes).1, o.Refers x) ↔
      ¬ scopes.binds x = true ∧ Case.Uses x cases)
  | [], _ => by simp [Case.walk, Case.Uses]
  | ⟨_, body⟩ :: rest, scopes => by
      simp only [Case.walk, Block.walk_snd, Scopes.pop_bindAll_push, exists_mem_append,
        Block.exists_refers_walk body, Case.exists_refers_walk rest, Scopes.binds_push,
        Case.Uses, and_or_left]

end

theorem Block.mem_freeNames_iff {b : Block} : x ∈ b.freeNames ↔ Block.Uses x b := by
  have hwalk := Block.exists_refers_walk (x := x) b Scopes.initial
  simp only [Scopes.binds_initial, Bool.false_eq_true, not_false_eq_true, true_and] at hwalk
  rw [Block.mem_freeNames, ← hwalk]
  rfl

theorem Block.uses_append {b c : Block} :
    Block.Uses x (b ++ c) ↔ Block.Uses x b ∨ x ∉ Block.declared b ∧ Block.Uses x c := by
  rw [← Block.mem_freeNames_iff, ← Block.mem_freeNames_iff, ← Block.mem_freeNames_iff]
  exact Block.mem_freeNames_append

theorem Case.uses_iff {cases : List Case} :
    Case.Uses x cases ↔ ∃ c ∈ cases, Block.Uses x c.body := by
  induction cases with
  | nil => simp [Case.Uses]
  | cons c cases ih =>
      obtain ⟨value, body⟩ := c
      rw [Case.Uses, ih, List.exists_mem_cons_iff]

end Walk

/-! ## Statements that match -/

theorem exists_mem_left_of_forall₂ {α β : Type} {R : α → β → Prop} {xs : List α} {ys : List β}
    (h : List.Forall₂ R xs ys) {y : β} (hy : y ∈ ys) : ∃ x ∈ xs, R x y := by
  induction h with
  | nil => cases hy
  | cons hxy _ ih =>
      rcases List.mem_cons.mp hy with rfl | hy
      · exact ⟨_, List.mem_cons_self .., hxy⟩
      · obtain ⟨x, hx, hR⟩ := ih hy
        exact ⟨x, List.mem_cons_of_mem _ hx, hR⟩

/-- Occurrences that correspond: both do the same with their variable, both are free or none
is, and free ones are of variables that stand for each other. -/
structure Occurrence.Matches (M : Matching) (o o' : Occurrence) : Prop where
  access : o.access = o'.access
  isFree : o.isFree = o'.isFree
  name : o.isFree = true → M o.name o'.name

/-- At a place inside, `N` pairs variables declared on the way with each other, and all others as
`M` does outside. -/
structure Matching.Inside (M N : Matching) (scopes scopes' : Scopes) : Prop where
  binds_eq : ∀ x y, N x y → scopes.binds x = scopes'.binds y
  outside : ∀ x y, N x y → scopes.binds x = false → M x y

namespace Matching

variable {M N : Matching} {scopes scopes' : Scopes}

theorem inside_initial (M : Matching) : M.Inside M .initial .initial where
  binds_eq := fun _ _ _ => rfl
  outside := fun _ _ hxy _ => hxy

theorem Inside.push (h : M.Inside N scopes scopes') : M.Inside N scopes.push scopes'.push where
  binds_eq := by simpa using h.binds_eq
  outside := by simpa using h.outside

theorem Inside.bind (h : M.Inside N scopes scopes') (x y : String) :
    M.Inside (N.bind x y) (scopes.bind x) (scopes'.bind y) where
  binds_eq := by
    rintro a b (⟨rfl, rfl⟩ | ⟨ha, hb, hab⟩)
    · simp
    · rw [Scopes.binds_bind, Scopes.binds_bind, beq_false_of_ne ha, beq_false_of_ne hb,
        h.binds_eq a b hab]
  outside := by
    rintro a b (⟨rfl, rfl⟩ | ⟨ha, hb, hab⟩) hfree
    · simp at hfree
    · exact h.outside a b hab (by simpa [ha] using hfree)

theorem Inside.bindAll (h : M.Inside N scopes scopes') {xs ys : List String}
    (hlen : xs.length = ys.length) :
    M.Inside (N.bindAll xs ys) (scopes.bindAll xs) (scopes'.bindAll ys) := by
  induction xs generalizing ys N scopes scopes' with
  | nil =>
      obtain rfl := List.eq_nil_of_length_eq_zero hlen.symm
      exact h
  | cons x xs ih =>
      cases ys with
      | nil => cases hlen
      | cons y ys => exact ih (h.bind x y) (Nat.succ.inj hlen)

theorem Inside.forall₂_map (h : M.Inside N scopes scopes') (access : Access)
    {xs ys : List String} (hxs : List.Forall₂ N xs ys) :
    List.Forall₂ (Occurrence.Matches M) (xs.map fun x => ⟨x, access, scopes⟩)
      (ys.map fun y => ⟨y, access, scopes'⟩) := by
  rw [List.forall₂_map_left_iff, List.forall₂_map_right_iff]
  refine hxs.imp fun x y hxy => ⟨rfl, ?_, fun hfree => ?_⟩
  · simp only [Occurrence.isFree, h.binds_eq x y hxy]
  · exact h.outside x y hxy (by simpa [Occurrence.isFree] using hfree)

end Matching

mutual

theorem Expr.Matches.forall₂_names {M : Matching} : {e f : Expr} → e.Matches M f →
    List.Forall₂ M e.variableNames f.variableNames
  | _, _, .literal _ => .nil
  | _, _, .variable hxy => .cons hxy .nil
  | _, _, .call _ hargs => hargs.forall₂_names

theorem Expr.MatchesAll.forall₂_names {M : Matching} : {es fs : List Expr} →
    Expr.MatchesAll M es fs →
    List.Forall₂ M (Expr.variableNamesOfList es) (Expr.variableNamesOfList fs)
  | _, _, .nil => .nil
  | _, _, .cons he hes => List.rel_append he.forall₂_names hes.forall₂_names

end

section Matches

variable {M : Matching}

theorem Expr.MatchesOption.forall₂_reads {N : Matching} {scopes scopes' : Scopes}
    (h : M.Inside N scopes scopes') {e f : Option Expr} :
    Expr.MatchesOption N e f → List.Forall₂ (Occurrence.Matches M)
      (Expr.readsOfOption e scopes) (Expr.readsOfOption f scopes')
  | .none => .nil
  | .some he => h.forall₂_map .read he.forall₂_names

mutual

/-- Walks through statements that match meet occurrences that correspond, one by one. -/
theorem Stmt.Matches.forall₂_walk : {N : Matching} → {s t : Stmt} → {scopes scopes' : Scopes} →
    s.Matches N t → M.Inside N scopes scopes' →
    List.Forall₂ (Occurrence.Matches M) (s.walk scopes).1 (t.walk scopes').1
  | _, _, _, _, _, .expr he, h => h.forall₂_map .read he.forall₂_names
  | _, _, _, _, _, .assign he hxs, h =>
      List.rel_append (h.forall₂_map .read he.forall₂_names) (h.forall₂_map .write hxs)
  | _, _, _, _, _, .declare he _, h => he.forall₂_reads h
  | _, _, _, _, _, .define _ hps hrs hb, h =>
      hb.forall₂_walk (h.push.bindAll (TypedName.length_names_append hps hrs)).push
  | _, _, _, _, _, .branch hc hb, h =>
      List.rel_append (h.forall₂_map .read hc.forall₂_names) (hb.forall₂_walk h.push)
  | _, _, _, _, _, .switch he hcs, h =>
      List.rel_append (h.forall₂_map .read he.forall₂_names) (hcs.forall₂_walk h)
  | _, _, _, _, _, .loop hpre hc hpost hbody, h => by
      have hafter := h.push.bindAll hpre.length_declared
      simp only [Stmt.walk, Block.walk_snd, Scopes.pop_bindAll_push]
      exact List.rel_append (List.rel_append (List.rel_append (hpre.forall₂_walk h.push)
        (hafter.forall₂_map .read hc.forall₂_names)) (hpost.forall₂_walk hafter.push))
        (hbody.forall₂_walk hafter.push)
  | _, _, _, _, _, .break, _ => .nil
  | _, _, _, _, _, .continue, _ => .nil
  | _, _, _, _, _, .leave, _ => .nil
  | _, _, _, _, _, .block hb, h => hb.forall₂_walk h.push

theorem Block.Matches.forall₂_walk : {N : Matching} → {b c : List Stmt} →
    {scopes scopes' : Scopes} → Block.Matches N b c → M.Inside N scopes scopes' →
    List.Forall₂ (Occurrence.Matches M) (Block.walk b scopes).1 (Block.walk c scopes').1
  | _, _, _, _, _, .nil, _ => .nil
  | _, _, _, _, _, .cons hs hb, h => by
      simp only [Block.walk, Stmt.walk_snd]
      exact List.rel_append (hs.forall₂_walk h) (hb.forall₂_walk (h.bindAll hs.length_declared))

theorem Case.Matches.forall₂_walk : {N : Matching} → {cs ds : List Case} →
    {scopes scopes' : Scopes} → Case.Matches N cs ds → M.Inside N scopes scopes' →
    List.Forall₂ (Occurrence.Matches M) (Case.walk cs scopes).1 (Case.walk ds scopes').1
  | _, _, _, _, _, .nil, _ => .nil
  | _, _, _, _, _, .cons _ hb hcs, h => by
      simp only [Case.walk, Block.walk_snd, Scopes.pop_bindAll_push]
      exact List.rel_append (hb.forall₂_walk h.push) (hcs.forall₂_walk h)

end

/-- What some statements use, the same or another variable stands for in statements that they
match. -/
theorem Block.Matches.exists_uses {y : String} {b c : Block} (h : Block.Matches M b c)
    (hy : Block.Uses y c) : ∃ x, Block.Uses x b ∧ M x y := by
  obtain ⟨o', ho', hfree, rfl⟩ := Block.mem_freeNames.mp (Block.mem_freeNames_iff.mpr hy)
  obtain ⟨o, ho, hoo'⟩ := exists_mem_left_of_forall₂ (h.forall₂_walk M.inside_initial) ho'
  have hfree : o.isFree = true := hoo'.isFree.trans hfree
  have hmem : o.name ∈ b.freeNames := Block.mem_freeNames.mpr ⟨o, ho, hfree, rfl⟩
  exact ⟨o.name, Block.mem_freeNames_iff.mp hmem, hoo'.name hfree⟩

theorem Stmt.Matches.exists_uses {y : String} {s t : Stmt} (h : s.Matches M t) (hy : t.Uses y) :
    ∃ x, s.Uses x ∧ M x y := by
  -- A statement is a scope of one statement.
  obtain ⟨x, hx | ⟨-, hx⟩, hxy⟩ := (Block.Matches.cons h .nil).exists_uses (Or.inl hy)
  · exact ⟨x, hx, hxy⟩
  · exact hx.elim

end Matches

end SwitchHoist
