import SwitchHoist.Proofs.OuterNames
import SwitchHoist.Proofs.RenamedOccurrences

/-!
# One renaming in the end, or one behind each declaration

A case is renamed once, when the prefix is complete, with the names of all declarations taken
from it.  It could as well be renamed behind each declaration, with the names of this one only.

The two ways differ in general: a variable that has been renamed could be renamed again, or be
caught by a declaration of its new name.  The checks made on the way rule out both, and so a step
of the one keeps up with a step of the other.
-/

namespace SwitchHoist

/-- The statements behind the first one.  Behind a declaration they are renamed at once, from its
names to those of the reference. -/
def Block.dropRenamed (reference : Stmt) : Block → Block
  | [] => []
  | .declare vars _ :: rest =>
      (Renaming.insertAll [] (TypedName.names vars) reference.declared).stmts rest
  | _ :: rest => rest

/-- What is left behind one step for each of the references. -/
def Block.dropAll (references : Block) (b : Block) : Block :=
  references.foldl (fun rest reference => Block.dropRenamed reference rest) b

theorem Block.dropRenamed_cons (reference s : Stmt) (rest : Block) :
    Block.dropRenamed reference (s :: rest) =
      (Renaming.insertAll [] s.declared reference.declared).stmts rest := by
  cases s with
  | declare vars e => rfl
  | _ => exact (Block.renameFrom_nil rest .initial).symm

namespace Renaming

theorem stmts_cons (ρ : Renaming) (s : Stmt) (rest : Block) :
    ρ.stmts (s :: rest) = ρ.stmt s ::
      (Block.renameFrom ρ rest (Scopes.initial.bindAll (s.declared.filter ρ.maps))).1 := by
  rw [stmts, Block.renameFrom, Stmt.rename_snd, stmt]

/-- New names given later go before those given earlier. -/
theorem target?_insertAll_eq_or (ρ : Renaming) (xs ys : List String) (x : String) :
    (ρ.insertAll xs ys).target? x = ((insertAll [] xs ys).target? x).or (ρ.target? x) := by
  induction xs generalizing ρ ys with
  | nil => rfl
  | cons x' xs ih =>
      cases ys with
      | nil => rfl
      | cons y ys =>
          change ((ρ.insert x' y).insertAll xs ys).target? x =
            (((insert [] x' y).insertAll xs ys).target? x).or (ρ.target? x)
          rw [ih (ρ.insert x' y), ih (insert [] x' y), target?_insert, target?_insert,
            Option.or_assoc]
          split <;> rfl

/-- Behind a declaration, a renaming that goes on leaves the declared names alone. -/
theorem name_below_declared (ρ : Renaming) (own : List String) (x : String) :
    ρ.name (Scopes.initial.bindAll (own.filter ρ.maps)) x =
      if x ∈ own then x else (ρ.target? x).getD x := by
  cases hx : ρ.target? x with
  | none => simp [name, hx]
  | some y => simp [name, hx, Scopes.binds_bindAll, maps_of_target? hx]

/-- Behind a declaration, a name with a new name that is free there has none of the declared
names as its new name. -/
theorem preserves_tail {ρ : Renaming} {taken : Names} {s : Stmt} {rest : Block}
    (h : ρ.preserves taken (s :: rest) = true) {o : Occurrence}
    (ho : o ∈ Block.occurrences rest) (hfree : o.isFree = true) (hname : o.name ∉ s.declared)
    {y : String} (hy : ρ.target? o.name = some y) : y ∉ s.declared := by
  -- The same occurrence below what the declaration binds.
  have hwalk := Block.forall₂_walk rest (Scopes.Over.refl (Scopes.initial.bindAll s.declared))
    (Scopes.Over.refl .initial)
  obtain ⟨o', ho', hsame, -, inner, hscopes', hscopes⟩ := exists_mem_left_of_forall₂ hwalk ho
  have hkeeps : ρ.keeps taken o' = true := by
    refine List.all_eq_true.mp h o' ?_
    rw [Block.occurrences_cons]
    exact List.mem_append_right _ ho'
  have hinner := hscopes o.name
  have hbinds := hscopes' o.name
  have hbinds' := hscopes' y
  simp only [Scopes.binds_bindAll, Scopes.binds_initial, Bool.or_false, List.contains_iff_mem]
    at hinner hbinds hbinds'
  simp only [Occurrence.isFree, Bool.not_eq_true'] at hfree
  simp only [keeps, hsame, hy] at hkeeps
  grind

/-- One renaming for all declarations does to an occurrence what a renaming for the earlier ones
and then one for the last do, unless a new name is caught on the way or declared by the last. -/
theorem occurrence_insertAll {ρ : Renaming} {own targets : List String}
    (hlen : own.length = targets.length) {o : Occurrence}
    (hcaught : o.isFree = true → ∀ y, (ρ.insertAll own targets).target? o.name = some y →
      o.scopes.binds y = false)
    (hown : o.isFree = true → o.name ∉ own → ∀ y, ρ.target? o.name = some y → y ∉ own) :
    (insertAll [] own targets).occurrence .initial
        (ρ.occurrence (Scopes.initial.bindAll (own.filter ρ.maps)) o) =
      (ρ.insertAll own targets).occurrence .initial o := by
  cases hfree : o.isFree with
  | false => rw [occurrence_of_bound hfree, occurrence_of_bound hfree, occurrence_of_bound hfree]
  | true =>
      rw [occurrence_of_free hfree, occurrence_of_free hfree, name_initial, name_below_declared]
      by_cases hmem : o.name ∈ own
      · -- The declaration hides older new names of its own names.
        obtain ⟨y, -, hy⟩ := exists_target?_insertAll (ρ := []) hlen hmem
        rw [if_pos hmem, occurrence_of_free hfree, name_initial, target?_insertAll_eq_or ρ, hy]
        rfl
      · have hlater : (ρ.insertAll own targets).target? o.name = ρ.target? o.name :=
          target?_insertAll_of_not_mem hmem
        rw [if_neg hmem, hlater]
        cases hx : ρ.target? o.name with
        | none =>
            have hnone : (insertAll [] own targets).target? o.name = none :=
              target?_insertAll_of_not_mem hmem
            rw [Option.getD_none, occurrence_of_free hfree, name_initial, hnone]
            rfl
        | some y =>
            -- The new name is neither caught nor given another new name.
            have hstill : Occurrence.isFree { o with name := y } = true := by
              simp [Occurrence.isFree, hcaught hfree y (hlater.trans hx)]
            have hnone : (insertAll [] own targets).target? y = none :=
              target?_insertAll_of_not_mem (hown hfree hmem y hx)
            rw [Option.getD_some, occurrence_of_free hstill, name_initial, hnone]
            rfl

end Renaming

/-! ## Steps and runs -/

namespace Follower

/-- A step with the accumulated renaming keeps up with a step that renames at once. -/
theorem Step.dropRenamed {equivalent : Equivalence} {taken : Names} {s t : Stmt} {f g : Follower}
    (h : Step equivalent taken s t f g) (hf : f.renames.preserves taken f.rest = true) :
    Block.dropRenamed s (f.renames.stmts f.rest) = g.renames.stmts g.rest := by
  have hg := h.preserves_rest hf
  rw [h.rest] at hf
  rw [h.rest, Renaming.stmts_cons, Block.dropRenamed_cons, Renaming.declared_stmt]
  refine Block.eq_of_blanked_eq ?_ (congrArg (List.map Occurrence.name) ?_)
  · rw [Renaming.stmts, Renaming.stmts, Block.blanked_renameFrom, Block.blanked_renameFrom,
      Block.blanked_renameFrom]
  · rw [Renaming.stmts, Renaming.stmts, Block.occurrences_renameFrom,
      Block.occurrences_renameFrom, Block.occurrences_renameFrom, List.map_map, h.renames]
    refine List.map_congr_left fun o ho => Renaming.occurrence_insertAll h.arity ?_ ?_
    · intro hfree y hy
      have hkeeps := List.all_eq_true.mp hg o ho
      simp only [Occurrence.isFree, Bool.not_eq_true'] at hfree
      simpa [Renaming.keeps, hfree, h.renames, hy] using hkeeps
    · intro hfree hname y hy
      exact Renaming.preserves_tail hf ho hfree hname hy

/-- Without the checks the two ways differ: here a variable that has been renamed is renamed
again. -/
example :
    Block.dropRenamed (.declareUntyped ["c"] none) (Renaming.stmts [("a", "b")]
        [.declareUntyped ["b"] none, .expr (.call "f" [.variable "a"])]) ≠
      (Renaming.insertAll [("a", "b")] ["b"] ["c"]).stmts [.expr (.call "f" [.variable "a"])] := by
  decide

/-- A run with the accumulated renaming keeps up with steps that rename at once, and each of these
finds a statement that does the same as the one of the first case. -/
theorem Run.dropAll {equivalent : Equivalence} {taken : Names} {b : Block} {f g : Follower}
    (h : Run equivalent taken b f g) (hf : f.renames.preserves taken f.rest = true) :
    g.renames.stmts g.rest = Block.dropAll b (f.renames.stmts f.rest) ∧
      ∀ i (hi : i < b.length), ∃ t,
        (Block.dropAll (b.take i) (f.renames.stmts f.rest)).head? = some t ∧
          equivalent b[i] t = true := by
  induction h with
  | done => exact ⟨rfl, fun i hi => absurd hi (Nat.not_lt_zero i)⟩
  | @step taken s t b f f' g hstep _ ih =>
      obtain ⟨hlast, hheads⟩ := ih (hstep.preserves_rest hf)
      have hdrop := hstep.dropRenamed hf
      refine ⟨?_, fun i hi => ?_⟩
      · rw [hlast, Block.dropAll, Block.dropAll, List.foldl_cons, hdrop]
      · cases i with
        | zero =>
            refine ⟨f.renames.stmt t, ?_, hstep.equal⟩
            rw [hstep.rest, Renaming.stmts_cons]
            rfl
        | succ i =>
            obtain ⟨u, hu, hequal⟩ := hheads i (Nat.lt_of_succ_lt_succ hi)
            refine ⟨u, ?_, hequal⟩
            rw [List.take_succ_cons, Block.dropAll, List.foldl_cons, hdrop]
            exact hu

/-- A run that starts at a whole case. -/
theorem Run.dropAll_ofCase {equivalent : Equivalence} {b : Block} {c : Case} {g : Follower}
    (h : Run equivalent [] b (ofCase c) g) :
    g.toCase.body = Block.dropAll b c.body ∧
      ∀ i (hi : i < b.length), ∃ t,
        (Block.dropAll (b.take i) c.body).head? = some t ∧ equivalent b[i] t = true := by
  have hstart : (ofCase c).renames.stmts (ofCase c).rest = c.body :=
    Block.renameFrom_nil c.body .initial
  have hrun := h.dropAll (fits_ofCase c).keeps
  rwa [hstart] at hrun

end Follower

theorem Stmt.alphaEq_symm {s t : Stmt} (h : s.alphaEq t = true) : t.alphaEq s = true := by
  refine (Stmt.alphaEq_iff t s).mpr (((Stmt.alphaEq_iff s t).mp h).symm.mono ?_)
  intro x y hxy
  exact hxy.symm

/-- Behind the prefix that is taken from a switch, every case but the first is what steps on its
old body leave that rename behind each declaration at once, and each of these steps starts at a
statement equal, up to declared names, to the one of the first case. -/
theorem hoistPrefix_eq_dropAll (live : Names) (scrutinee : Expr) (first : Case)
    (others : List Case) :
    ∃ hoisted rest others',
      hoistPrefix Stmt.alphaEq live scrutinee (first :: others) =
        .ok (hoisted, ⟨first.value, rest⟩ :: others') ∧
      first.body = hoisted ++ rest ∧
      List.Forall₂ (fun c c' => c'.value = c.value ∧ c'.body = Block.dropAll hoisted c.body ∧
        ∀ i (hi : i < hoisted.length), ∃ t,
          (Block.dropAll (hoisted.take i) c.body).head? = some t ∧
            t.alphaEq hoisted[i] = true) others others' := by
  obtain ⟨hoisted, cases', h⟩ := exists_hoistPrefix Stmt.alphaEq_faithful live scrutinee
    (List.cons_ne_nil first others)
  obtain ⟨first', others', rest, followers, heq, hfirst, rfl, -, hruns⟩ := hoistPrefix_eq_ok h
  cases heq
  refine ⟨hoisted, rest, _, h, hfirst, ?_⟩
  rw [List.forall₂_map_right_iff]
  refine hruns.imp fun c g hrun => ?_
  obtain ⟨hlast, hheads⟩ := hrun.dropAll_ofCase
  refine ⟨hrun.rest.1, hlast, fun i hi => ?_⟩
  obtain ⟨t, ht, hequal⟩ := hheads i hi
  exact ⟨t, ht, Stmt.alphaEq_symm hequal⟩

end SwitchHoist
