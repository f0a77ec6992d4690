import SwitchHoist.Proofs.CommonStart

/-!
# Functions called from outside a block

A function is visible in the whole block that defines it, in front of the definition as
well as behind it.  A call inside that block means this function, unless a block further
in defines one of the same name; a call that no block around it resolves means a function
of the surroundings.

The first block of a loop is a block like any other.  Whether its functions are visible in
the rest of the loop too, as its variables are, is left open: `wide` says so, and nothing
here depends on it.
-/

namespace SwitchHoist

mutual

/-- A statement calls a function that is defined outside the statement. -/
def Stmt.Calls (wide : Bool) (f : String) : Stmt → Prop
  | .expr e => f ∈ e.callees
  | .assign _ e => f ∈ e.callees
  | .declare _ none => False
  | .declare _ (some e) => f ∈ e.callees
  | .define _ _ _ body => f ∉ Block.functions body ∧ Block.AnyCalls wide f body
  | .branch c body => f ∈ c.callees ∨ f ∉ Block.functions body ∧ Block.AnyCalls wide f body
  | .switch e cases => f ∈ e.callees ∨ Case.AnyCalls wide f cases
  | .loop pre c post body =>
      f ∉ Block.functions pre ∧ Block.AnyCalls wide f pre ∨
        (wide = true → f ∉ Block.functions pre) ∧
          (f ∈ c.callees ∨ f ∉ Block.functions post ∧ Block.AnyCalls wide f post ∨
            f ∉ Block.functions body ∧ Block.AnyCalls wide f body)
  | .block body => f ∉ Block.functions body ∧ Block.AnyCalls wide f body
  | .break | .continue | .leave => False

/-- One of some statements calls a function that is defined outside the statement. -/
def Block.AnyCalls (wide : Bool) (f : String) : List Stmt → Prop
  | [] => False
  | s :: rest => s.Calls wide f ∨ Block.AnyCalls wide f rest

/-- One of some cases calls a function that is defined outside the case. -/
def Case.AnyCalls (wide : Bool) (f : String) : List Case → Prop
  | [] => False
  | ⟨_, body⟩ :: rest =>
      f ∉ Block.functions body ∧ Block.AnyCalls wide f body ∨ Case.AnyCalls wide f rest

end

/-- A block calls a function that is defined outside the block. -/
def Block.Calls (wide : Bool) (f : String) (b : Block) : Prop :=
  f ∉ Block.functions b ∧ Block.AnyCalls wide f b

section Calls

variable {wide : Bool} {f : String}

theorem Block.anyCalls_append {b c : Block} :
    Block.AnyCalls wide f (b ++ c) ↔ Block.AnyCalls wide f b ∨ Block.AnyCalls wide f c := by
  induction b with
  | nil => simp [Block.AnyCalls]
  | cons s rest ih => rw [List.cons_append, Block.AnyCalls, Block.AnyCalls, ih, or_assoc]

theorem Block.functions_append (b c : Block) :
    Block.functions (b ++ c) = Block.functions b ++ Block.functions c :=
  List.filterMap_append

theorem Case.anyCalls_iff {cases : List Case} :
    Case.AnyCalls wide f cases ↔ ∃ c ∈ cases, Block.Calls wide f c.body := by
  induction cases with
  | nil => simp [Case.AnyCalls]
  | cons c rest ih =>
      obtain ⟨value, body⟩ := c
      rw [Case.AnyCalls, ih, List.exists_mem_cons_iff]
      rfl

/-! ## Calls anywhere -/

theorem Stmt.mem_called_of_callees {s t : Stmt} (ht : t ∈ s.subtree) (hf : f ∈ t.callees) :
    f ∈ s.called :=
  List.mem_flatMap.mpr ⟨t, ht, hf⟩

mutual

/-- A function called from outside a statement is among the functions it calls. -/
theorem Stmt.Calls.exists_subtree : (s : Stmt) → s.Calls wide f →
    ∃ t ∈ s.subtree, f ∈ t.callees
  | .expr e, h => ⟨_, List.mem_singleton_self _, h⟩
  | .assign _ e, h => ⟨_, List.mem_singleton_self _, h⟩
  | .declare _ (some e), h => ⟨_, List.mem_singleton_self _, h⟩
  | .define _ _ _ body, h => by
      obtain ⟨t, ht, hf⟩ := Block.AnyCalls.exists_subtrees body h.2
      exact ⟨t, List.mem_cons_of_mem _ ht, hf⟩
  | .branch c body, h => by
      rcases h with h | h
      · exact ⟨_, List.mem_cons_self .., h⟩
      · obtain ⟨t, ht, hf⟩ := Block.AnyCalls.exists_subtrees body h.2
        exact ⟨t, List.mem_cons_of_mem _ ht, hf⟩
  | .switch e cases, h => by
      rcases h with h | h
      · exact ⟨_, List.mem_cons_self .., h⟩
      · obtain ⟨t, ht, hf⟩ := Case.AnyCalls.exists_subtrees cases h
        exact ⟨t, List.mem_cons_of_mem _ ht, hf⟩
  | .loop pre c post body, h => by
      simp only [Stmt.subtree, List.mem_cons, List.mem_append]
      rcases h with h | ⟨-, h | h | h⟩
      · obtain ⟨t, ht, hf⟩ := Block.AnyCalls.exists_subtrees pre h.2
        exact ⟨t, Or.inr (Or.inl (Or.inl ht)), hf⟩
      · exact ⟨_, Or.inl rfl, h⟩
      · obtain ⟨t, ht, hf⟩ := Block.AnyCalls.exists_subtrees post h.2
        exact ⟨t, Or.inr (Or.inl (Or.inr ht)), hf⟩
      · obtain ⟨t, ht, hf⟩ := Block.AnyCalls.exists_subtrees body h.2
        exact ⟨t, Or.inr (Or.inr ht), hf⟩
  | .block body, h => by
      obtain ⟨t, ht, hf⟩ := Block.AnyCalls.exists_subtrees body h.2
      exact ⟨t, List.mem_cons_of_mem _ ht, hf⟩

theorem Block.AnyCalls.exists_subtrees : (b : List Stmt) → Block.AnyCalls wide f b →
    ∃ t ∈ Block.subtrees b, f ∈ t.callees
  | s :: rest, h => by
      simp only [Block.subtrees, List.mem_append]
      rcases h with h | h
      · obtain ⟨t, ht, hf⟩ := Stmt.Calls.exists_subtree s h
        exact ⟨t, Or.inl ht, hf⟩
      · obtain ⟨t, ht, hf⟩ := Block.AnyCalls.exists_subtrees rest h
        exact ⟨t, Or.inr ht, hf⟩

theorem Case.AnyCalls.exists_subtrees : (cases : List Case) → Case.AnyCalls wide f cases →
    ∃ t ∈ Case.subtrees cases, f ∈ t.callees
  | ⟨_, body⟩ :: rest, h => by
      simp only [Case.subtrees, List.mem_append]
      rcases h with h | h
      · obtain ⟨t, ht, hf⟩ := Block.AnyCalls.exists_subtrees body h.2
        exact ⟨t, Or.inl ht, hf⟩
      · obtain ⟨t, ht, hf⟩ := Case.AnyCalls.exists_subtrees rest h
        exact ⟨t, Or.inr ht, hf⟩

end

/-- What some statements call from outside, one of them calls. -/
theorem Block.AnyCalls.exists_mem {b : Block} (h : Block.AnyCalls wide f b) :
    ∃ s ∈ b, f ∈ s.called := by
  induction b with
  | nil => exact h.elim
  | cons s rest ih =>
      rcases h with h | h
      · obtain ⟨t, ht, hf⟩ := Stmt.Calls.exists_subtree s h
        exact ⟨s, List.mem_cons_self .., Stmt.mem_called_of_callees ht hf⟩
      · obtain ⟨t, ht, hf⟩ := ih h
        exact ⟨t, List.mem_cons_of_mem _ ht, hf⟩

/-! ## Statements that match -/

mutual

/-- Statements that match call the same functions from outside: callees are never
renamed, and the blocks inside define the same functions. -/
theorem Stmt.Matches.calls_iff : {M : Matching} → {s t : Stmt} → s.Matches M t →
    (s.Calls wide f ↔ t.Calls wide f)
  | _, _, _, .expr he => by rw [Stmt.Calls, Stmt.Calls, he.callees_eq]
  | _, _, _, .assign he _ => by rw [Stmt.Calls, Stmt.Calls, he.callees_eq]
  | _, _, _, .declare .none _ => Iff.rfl
  | _, _, _, .declare (.some he) _ => by rw [Stmt.Calls, Stmt.Calls, he.callees_eq]
  | _, _, _, .define _ _ _ hb => by
      rw [Stmt.Calls, Stmt.Calls, hb.functions_eq, hb.anyCalls_iff]
  | _, _, _, .branch hc hb => by
      rw [Stmt.Calls, Stmt.Calls, hc.callees_eq, hb.functions_eq, hb.anyCalls_iff]
  | _, _, _, .switch he hcs => by
      rw [Stmt.Calls, Stmt.Calls, he.callees_eq, hcs.anyCalls_iff]
  | _, _, _, .loop hpre hc hpost hbody => by
      rw [Stmt.Calls, Stmt.Calls, hc.callees_eq, hpre.functions_eq, hpre.anyCalls_iff,
        hpost.functions_eq, hpost.anyCalls_iff, hbody.functions_eq, hbody.anyCalls_iff]
  | _, _, _, .break => Iff.rfl
  | _, _, _, .continue => Iff.rfl
  | _, _, _, .leave => Iff.rfl
  | _, _, _, .block hb => by rw [Stmt.Calls, Stmt.Calls, hb.functions_eq, hb.anyCalls_iff]

theorem Block.Matches.anyCalls_iff : {M : Matching} → {b c : List Stmt} → Block.Matches M b c →
    (Block.AnyCalls wide f b ↔ Block.AnyCalls wide f c)
  | _, _, _, .nil => Iff.rfl
  | _, _, _, .cons hs hb => by
      rw [Block.AnyCalls, Block.AnyCalls, hs.calls_iff, hb.anyCalls_iff]

theorem Case.Matches.anyCalls_iff : {M : Matching} → {cs ds : List Case} →
    Case.Matches M cs ds → (Case.AnyCalls wide f cs ↔ Case.AnyCalls wide f ds)
  | _, _, _, .nil => Iff.rfl
  | _, _, _, .cons _ hb hcs => by
      rw [Case.AnyCalls, Case.AnyCalls, hb.functions_eq, hb.anyCalls_iff, hcs.anyCalls_iff]

end

end Calls

end SwitchHoist
