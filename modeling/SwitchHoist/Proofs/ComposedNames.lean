import SwitchHoist.Hoisting.Pass
import SwitchHoist.Proofs.OuterScopes

/-!
# Free names of sequences and loops

A walk depends on the scopes that it starts below only through the names that they bind: the names
that it finds free are those of a walk on its own, without the bound ones.  So the free names of
statements one behind the other, and those of a loop, follow from the free names of their parts
and from what the parts declare, `Block.freeNames_compose`.  The pass uses both: what is live
behind a switch is put together from the statements behind it and from the loop around it.
-/

namespace SwitchHoist

/-- The names of the free occurrences, in the order in which a walk meets them. -/
def Occurrence.freeNames (os : List Occurrence) : Names :=
  (os.filter isFree).map name

namespace Occurrence

@[simp] theorem freeNames_append (os os' : List Occurrence) :
    freeNames (os ++ os') = freeNames os ++ freeNames os' := by
  rw [freeNames, List.filter_append, List.map_append]
  rfl

/-- The same occurrences below other scopes are free unless these scopes bind their names. -/
theorem freeNames_of_alike {scopes : Scopes} {os os' : List Occurrence}
    (h : List.Forall₂ (Alike scopes .initial) os os') :
    freeNames os = (freeNames os').filter fun x => !scopes.binds x := by
  induction h with
  | nil => rfl
  | @cons o o' os os' hoo' _ ih =>
      obtain ⟨hname, -, inner, hscopes, hscopes'⟩ := hoo'
      -- What was opened on the way binds the name below both or below none.
      have hfree : o.isFree = (o'.isFree && !scopes.binds o'.name) := by
        have hbelow := hscopes o'.name
        have hinitial := hscopes' o'.name
        rw [Scopes.binds_initial] at hinitial
        simp only [isFree, hname]
        grind
      simp only [freeNames, List.filter_cons, hfree] at ih ⊢
      cases o'.isFree <;> cases hbinds : scopes.binds o'.name <;> simp [hbinds, ih, hname]

/-- An expression opens no scope, so all its names are free unless a scope around it binds them. -/
theorem freeNames_reads (e : Expr) (scopes : Scopes) :
    freeNames (e.reads scopes) = e.variableNames.filter fun x => !scopes.binds x := by
  rw [freeNames, Expr.reads, List.filter_map, List.map_map]
  exact List.map_id _

end Occurrence

namespace Block

/-- Below some scopes, statements use the same names from outside but those that the scopes
bind. -/
theorem freeNames_walk (b : Block) (scopes : Scopes) :
    Occurrence.freeNames (Block.walk b scopes).1 = b.freeNames.filter fun x => !scopes.binds x :=
  Occurrence.freeNames_of_alike
    (Block.forall₂_walk b (Scopes.Over.refl scopes) (Scopes.Over.refl .initial))

/-- What is left of some names in a scope that declares others. -/
theorem filter_not_binds_declared (names : Names) (b : Block) (scopes : Scopes)
    (h : ∀ x, scopes.binds x = false) :
    names.filter (fun x => !(scopes.bindAll (Block.declared b)).binds x) =
      names.filter (· ∉ Block.declared b) := by
  refine List.filter_congr fun x _ => ?_
  rw [Scopes.binds_bindAll, h x, Bool.or_false, List.contains_eq_mem, decide_not]

theorem freeNames_append (b c : Block) :
    Block.freeNames (b ++ c) = b.freeNames ++ c.freeNames.filter (· ∉ Block.declared b) := by
  calc Block.freeNames (b ++ c)
    _ = Occurrence.freeNames (Block.walk b .initial).1 ++
          Occurrence.freeNames (Block.walk c (Block.walk b .initial).2).1 := by
      rw [← Occurrence.freeNames_append, Block.freeNames, Block.occurrences, Block.walk_append]
      rfl
    _ = b.freeNames ++ c.freeNames.filter (· ∉ Block.declared b) := by
      rw [Block.walk_snd, freeNames_walk c, filter_not_binds_declared _ _ _ Scopes.binds_initial]
      rfl

theorem freeNames_loop (pre : Block) (condition : Expr) (post body : Block) :
    Block.freeNames [.loop pre condition post body] =
      pre.freeNames ++ (loopNames condition post body).filter (· ∉ Block.declared pre) := by
  -- All but the first block stands in the scope that the first block leaves.
  let inside := Scopes.initial.push.bindAll (Block.declared pre)
  have hnone : ∀ x, Scopes.initial.push.binds x = false := by simp
  calc Block.freeNames [.loop pre condition post body]
    _ = Occurrence.freeNames (Block.walk pre Scopes.initial.push).1 ++
          Occurrence.freeNames (condition.reads inside) ++
          Occurrence.freeNames (Block.walk post inside.push).1 ++
          Occurrence.freeNames (Block.walk body inside.push).1 := by
      rw [← Occurrence.freeNames_append, ← Occurrence.freeNames_append,
        ← Occurrence.freeNames_append, Block.freeNames, Block.occurrences]
      simp only [Block.walk, Stmt.walk, Block.walk_snd, Scopes.pop_bindAll_push, List.append_nil,
        inside]
      rfl
    _ = pre.freeNames ++ (loopNames condition post body).filter (fun x => !inside.binds x) := by
      rw [freeNames_walk, freeNames_walk, freeNames_walk, Occurrence.freeNames_reads, loopNames,
        List.filter_append, List.filter_append]
      simp [List.append_assoc]
    _ = pre.freeNames ++ (loopNames condition post body).filter (· ∉ Block.declared pre) := by
      rw [filter_not_binds_declared _ _ _ hnone]

/-- What is live behind a switch in the first block of a loop covers all that follows the switch in
its scope: the statements `after` it and the rest of the loop, which are the loop that starts
there. -/
theorem freeNames_loop_subset (after : Block) (condition : Expr) (post body : Block) :
    Block.freeNames [.loop after condition post body] ⊆
      Block.freeNames after ++ loopNames condition post body := by
  rw [freeNames_loop]
  exact (List.filter_sublist.append_left _).subset

/-- Behind statements, the names that they declare are no longer free; behind the first block of a
loop, the names that this block declares are not free in the condition and the other blocks.  The
lists agree in their order as well.  So the names that the pass takes to be live behind a switch
cover what follows it in its scope. -/
theorem freeNames_compose (b c pre post body : Block) (condition : Expr) :
    Block.freeNames (b ++ c) = b.freeNames ++ c.freeNames.filter (· ∉ Block.declared b) ∧
      Block.freeNames [.loop pre condition post body] =
        pre.freeNames ++
          (condition.variableNames ++ post.freeNames ++ body.freeNames).filter
            (· ∉ Block.declared pre) ∧
      Block.freeNames [.loop pre condition post body] ⊆
        Block.freeNames pre ++ loopNames condition post body :=
  ⟨freeNames_append b c, freeNames_loop pre condition post body,
    freeNames_loop_subset pre condition post body⟩

end Block

end SwitchHoist
