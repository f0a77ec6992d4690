import SwitchHoist.Proofs.ScopesRestored

/-!
# Statements match their renamings

A renaming that catches no occurrence turns statements into statements that match
them: what an occurrence is renamed to stands for the occurrence.  Only free
occurrences have to be looked at, since declarations keep their names.
-/

namespace SwitchHoist

namespace Matching

/-- The matching below scopes whose names both sides declare alike. -/
def under (M : Matching) (scopes : Scopes) : Matching :=
  fun x y => if scopes.binds x ∨ scopes.binds y then x = y else M x y

@[simp] theorem under_initial (M : Matching) : M.under Scopes.initial = M := by
  funext x y
  simp [under]

@[simp] theorem under_push (M : Matching) (scopes : Scopes) :
    M.under scopes.push = M.under scopes := by
  funext x y
  simp [under]

theorem under_bind (M : Matching) (scopes : Scopes) (x : String) :
    (M.under scopes).bind x x = M.under (scopes.bind x) := by
  funext a b
  simp only [bind, under, Scopes.binds_bind, Bool.or_eq_true, beq_iff_eq]
  by_cases ha : a = x <;> by_cases hb : b = x
  · simp [ha, hb]
  · have hxb : x ≠ b := fun h => hb h.symm
    simp [ha, hb, hxb]
  · simp [ha, hb]
  · simp [ha, hb]

theorem under_bindAll (M : Matching) (scopes : Scopes) (xs : List String) :
    (M.under scopes).bindAll xs xs = M.under (scopes.bindAll xs) := by
  induction xs generalizing scopes with
  | nil => rfl
  | cons x xs ih => rw [bindAll, under_bind, ih, Scopes.bindAll_cons]

end Matching

namespace Renaming

/-- The scopes of a renaming agree with those of a walk on all names that have a
new name. -/
def Tracks (ρ : Renaming) (inner scopes : Scopes) : Prop :=
  ∀ x, ρ.maps x = true → inner.binds x = scopes.binds x

theorem tracks_initial (ρ : Renaming) : ρ.Tracks Scopes.initial Scopes.initial :=
  fun _ _ => rfl

theorem Tracks.push {ρ : Renaming} {inner scopes : Scopes} (h : ρ.Tracks inner scopes) :
    ρ.Tracks inner.push scopes.push := by
  intro x hx
  rw [Scopes.binds_push, Scopes.binds_push]
  exact h x hx

theorem Tracks.bindAll {ρ : Renaming} {inner scopes : Scopes} (h : ρ.Tracks inner scopes)
    (xs : List String) :
    ρ.Tracks (inner.bindAll (xs.filter ρ.maps)) (scopes.bindAll xs) := by
  intro x hx
  rw [Scopes.binds_bindAll, Scopes.binds_bindAll, h x hx]
  congr 1
  rw [Bool.eq_iff_iff, List.contains_iff_mem, List.contains_iff_mem, List.mem_filter]
  exact and_iff_left hx

/-- A free occurrence stands for what it is renamed to, and no scope on the way
catches the new name. -/
def Respects (ρ : Renaming) (M : Matching) (o : Occurrence) : Prop :=
  o.isFree = true →
    match ρ.target? o.name with
    | some y => M o.name y ∧ o.scopes.binds y = false
    | none => M o.name o.name

theorem maps_of_target? {ρ : Renaming} {x y : String} (h : ρ.target? x = some y) :
    ρ.maps x = true := by
  simp [maps, h]

/-- An occurrence stands for what it is renamed to. -/
theorem under_name {ρ : Renaming} {M : Matching} {inner scopes : Scopes} {x : String}
    {access : Access} (ht : ρ.Tracks inner scopes) (h : ρ.Respects M ⟨x, access, scopes⟩) :
    M.under scopes x (ρ.name inner x) := by
  unfold Respects at h
  cases hx : ρ.target? x with
  | none =>
      -- A name without a new one stays: if it is bound here it stands for itself, and if it is
      -- free the matching says so.
      by_cases hb : scopes.binds x = true
      · simp [Matching.under, name, hx, hb]
      · simpa [Matching.under, Occurrence.isFree, name, hx, hb] using h
  | some y =>
      -- A bound name is not replaced, since the renaming has recorded its declaration.
      have hinner := ht x (maps_of_target? hx)
      by_cases hb : scopes.binds x = true
      · simp [Matching.under, name, hx, hinner, hb]
      · have hy : M x y ∧ scopes.binds y = false := by
          simpa [Occurrence.isFree, hx, hb] using h
        simp [Matching.under, name, hx, hinner, hb, hy.1, hy.2]

end Renaming

mutual

theorem Expr.matches_rename {ρ : Renaming} {M : Matching} {inner scopes : Scopes}
    (ht : ρ.Tracks inner scopes) : (e : Expr) →
    (∀ x ∈ e.variableNames, ρ.Respects M ⟨x, .read, scopes⟩) →
    e.Matches (M.under scopes) (e.rename ρ inner)
  | .literal l, _ => .literal l
  | .variable x, h => .variable (Renaming.under_name ht (h x (List.mem_singleton_self x)))
  | .call f args, h => .call f (Expr.matchesAll_rename ht args h)

theorem Expr.matchesAll_rename {ρ : Renaming} {M : Matching} {inner scopes : Scopes}
    (ht : ρ.Tracks inner scopes) : (es : List Expr) →
    (∀ x ∈ Expr.variableNamesOfList es, ρ.Respects M ⟨x, .read, scopes⟩) →
    Expr.MatchesAll (M.under scopes) es (Expr.renameList ρ inner es)
  | [], _ => .nil
  | e :: rest, h =>
      .cons (Expr.matches_rename ht e fun x hx => h x (List.mem_append_left _ hx))
        (Expr.matchesAll_rename ht rest fun x hx => h x (List.mem_append_right _ hx))

end

theorem Expr.matches_rename_reads {ρ : Renaming} {M : Matching} {inner scopes : Scopes}
    (ht : ρ.Tracks inner scopes) (e : Expr) (h : ∀ o ∈ e.reads scopes, ρ.Respects M o) :
    e.Matches (M.under scopes) (e.rename ρ inner) :=
  Expr.matches_rename ht e fun _ hx => h _ (List.mem_map_of_mem hx)

theorem Expr.matchesOption_rename {ρ : Renaming} {M : Matching} {inner scopes : Scopes}
    (ht : ρ.Tracks inner scopes) :
    (e : Option Expr) → (∀ o ∈ Expr.readsOfOption e scopes, ρ.Respects M o) →
      Expr.MatchesOption (M.under scopes) e (e.map (Expr.rename ρ inner))
  | none, _ => .none
  | some e, h => .some (Expr.matches_rename_reads ht e h)

/-- Assigned variables stand for what they are renamed to. -/
theorem Renaming.forall₂_targets {ρ : Renaming} {M : Matching} {inner scopes : Scopes}
    (ht : ρ.Tracks inner scopes) (targets : List String)
    (h : ∀ o ∈ targets.map fun x => (⟨x, .write, scopes⟩ : Occurrence), ρ.Respects M o) :
    List.Forall₂ (M.under scopes) targets (targets.map (ρ.name inner)) := by
  induction targets with
  | nil => exact .nil
  | cons x rest ih =>
      simp only [List.map_cons, List.forall_mem_cons] at h
      exact .cons (under_name ht h.1) (ih h.2)

mutual

/-- A statement matches its renaming if the renaming respects all occurrences in
it. -/
theorem Stmt.matches_rename {ρ : Renaming} {M : Matching} : (s : Stmt) → {inner scopes : Scopes} →
    ρ.Tracks inner scopes → (∀ o ∈ (s.walk scopes).1, ρ.Respects M o) →
    s.Matches (M.under scopes) (s.rename ρ inner).1
  | .expr e, _, _, ht, h => .expr (Expr.matches_rename_reads ht e h)
  | .assign targets value, _, _, ht, h => by
      simp only [Stmt.walk, List.forall_mem_append] at h
      exact .assign (Expr.matches_rename_reads ht value h.1)
        (Renaming.forall₂_targets ht targets h.2)
  | .declare _ value, _, _, ht, h => .declare (Expr.matchesOption_rename ht value h) rfl
  | .define name params returns body, inner, scopes, ht, h => by
      -- Parameters and returns share one scope, and the body has another one inside it.
      have ht' := (ht.push.bindAll (TypedName.names (params ++ returns))).push
      have hbody := Block.matches_renameFrom body ht' h
      rw [Matching.under_push, ← Matching.under_bindAll, Matching.under_push] at hbody
      have hinner : ρ.declare returns (ρ.declare params inner.push) =
          inner.push.bindAll ((TypedName.names (params ++ returns)).filter ρ.maps) := by
        rw [Renaming.declare_append, Renaming.declare_eq]
      simp only [Stmt.rename, hinner]
      exact .define name rfl rfl hbody
  | .branch condition body, _, scopes, ht, h => by
      simp only [Stmt.walk, List.forall_mem_append] at h
      have hbody := Block.matches_renameFrom body ht.push h.2
      rw [Matching.under_push] at hbody
      exact .branch (Expr.matches_rename_reads ht condition h.1) hbody
  | .switch scrutinee cases, _, _, ht, h => by
      simp only [Stmt.walk, List.forall_mem_append] at h
      exact .switch (Expr.matches_rename_reads ht scrutinee h.1)
        (Case.matches_renameFrom cases ht h.2)
  | .loop pre condition post body, inner, scopes, ht, h => by
      simp only [Stmt.walk, Block.walk_snd, Scopes.pop_bindAll_push, List.forall_mem_append,
        and_assoc] at h
      obtain ⟨hpre, hcondition, hpost, hbody⟩ := h
      have ht' := ht.push.bindAll (Block.declared pre)
      have hpre := Block.matches_renameFrom pre ht.push hpre
      have hcondition := Expr.matches_rename_reads ht' condition hcondition
      have hpost := Block.matches_renameFrom post ht'.push hpost
      have hbody := Block.matches_renameFrom body ht'.push hbody
      -- The first block keeps its declared names, so both sides bind the same names behind it.
      have hafter : M.under (scopes.push.bindAll (Block.declared pre)) =
          (M.under scopes).after pre (Block.renameFrom ρ pre inner.push).1 := by
        rw [Matching.after, Block.declared_renameFrom, ← Matching.under_bindAll,
          Matching.under_push]
      simp only [Matching.under_push] at hpre hpost hbody
      rw [hafter] at hcondition hpost hbody
      simp only [Stmt.rename, Block.renameFrom_snd, Scopes.pop_bindAll_push]
      exact .loop hpre hcondition hpost hbody
  | .break, _, _, _, _ => .break
  | .continue, _, _, _, _ => .continue
  | .leave, _, _, _, _ => .leave
  | .block body, _, scopes, ht, h => by
      have hbody := Block.matches_renameFrom body ht.push h
      rw [Matching.under_push] at hbody
      exact .block hbody

theorem Block.matches_renameFrom {ρ : Renaming} {M : Matching} : (b : List Stmt) →
    {inner scopes : Scopes} → ρ.Tracks inner scopes →
    (∀ o ∈ (Block.walk b scopes).1, ρ.Respects M o) →
    Block.Matches (M.under scopes) b (Block.renameFrom ρ b inner).1
  | [], _, _, _, _ => .nil
  | s :: rest, inner, scopes, ht, h => by
      simp only [Block.walk, Stmt.walk_snd, List.forall_mem_append] at h
      have hs := Stmt.matches_rename s ht h.1
      have hrest := Block.matches_renameFrom rest (ht.bindAll s.declared) h.2
      simp only [Block.renameFrom, Stmt.rename_snd]
      refine .cons hs ?_
      rw [Stmt.declared_rename, Matching.under_bindAll]
      exact hrest

theorem Case.matches_renameFrom {ρ : Renaming} {M : Matching} : (cases : List Case) →
    {inner scopes : Scopes} → ρ.Tracks inner scopes →
    (∀ o ∈ (Case.walk cases scopes).1, ρ.Respects M o) →
    Case.Matches (M.under scopes) cases (Case.renameFrom ρ cases inner).1
  | [], _, _, _, _ => .nil
  | ⟨value, body⟩ :: rest, _, scopes, ht, h => by
      simp only [Case.walk, Block.walk_snd, Scopes.pop_bindAll_push, List.forall_mem_append] at h
      have hbody := Block.matches_renameFrom body ht.push h.1
      rw [Matching.under_push] at hbody
      simp only [Case.renameFrom, Block.renameFrom_snd, Scopes.pop_bindAll_push]
      exact .cons value hbody (Case.matches_renameFrom rest ht h.2)

end

namespace Renaming

/-- The statements of a scope match their renaming. -/
theorem matches_stmts {ρ : Renaming} {M : Matching} {b : Block}
    (h : ∀ o ∈ b.occurrences, ρ.Respects M o) : Block.Matches M b (ρ.stmts b) := by
  have hb := Block.matches_renameFrom b (tracks_initial ρ) h
  rwa [Matching.under_initial] at hb

/-- A statement matches its renaming. -/
theorem matches_stmt {ρ : Renaming} {M : Matching} {s : Stmt}
    (h : ∀ o ∈ Block.occurrences [s], ρ.Respects M o) : s.Matches M (ρ.stmt s) := by
  have hs : ∀ o ∈ (s.walk Scopes.initial).1, ρ.Respects M o := by
    simpa [Block.occurrences, Block.walk] using h
  have hm := Stmt.matches_rename s (tracks_initial ρ) hs
  rwa [Matching.under_initial] at hm

end Renaming

/-- Statements match themselves when every name that is free in them stands for
itself. -/
theorem Block.matches_self {M : Matching} {b : Block} (h : ∀ x ∈ b.freeNames, M x x) :
    Block.Matches M b b := by
  have hb : Block.Matches M b (Renaming.stmts [] b) := by
    apply Renaming.matches_stmts
    intro o ho hfree
    exact h o.name (Block.mem_freeNames.mpr ⟨o, ho, hfree, rfl⟩)
  rwa [Renaming.stmts, Block.renameFrom_nil] at hb

theorem Stmt.matches_self {M : Matching} {s : Stmt} (h : ∀ x ∈ Block.freeNames [s], M x x) :
    s.Matches M s := by
  -- A statement is a scope of one statement.
  cases Block.matches_self h with
  | cons hs _ => exact hs

end SwitchHoist
