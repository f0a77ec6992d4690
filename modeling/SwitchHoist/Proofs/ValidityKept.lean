import SwitchHoist.Proofs.ValidPrograms

/-!
# The pass keeps the rules for programs

The rules about one statement are stable: they say nothing about the blocks inside it,
and a renaming brings in names only that other statements declare.  A block defines the
functions that it defined before.  What a prefix leaves behind stands in a case as before,
and the prefix itself comes to the place of the switch, which is the place of its cases.

Nothing here asks which equivalence is used.
-/

namespace SwitchHoist

/-! ## Names -/

theorem Renaming.name_eq_or (ρ : Renaming) (scopes : Scopes) (x : String) :
    ρ.name scopes x = x ∨ ρ.target? x = some (ρ.name scopes x) := by
  unfold Renaming.name
  split
  · next y htarget =>
      split
      · exact Or.inl rfl
      · exact Or.inr htarget
  · exact Or.inl rfl

section Identifiers

variable {ρ : Renaming} {y : String}

mutual

theorem Expr.mem_identifiers_rename (scopes : Scopes) : (e : Expr) →
    y ∈ (e.rename ρ scopes).identifiers → y ∈ e.identifiers ∨ ∃ x, ρ.target? x = some y
  | .literal _, h => nomatch h
  | .variable x, h => by
      rw [Expr.rename, Expr.identifiers, List.mem_singleton] at h
      subst h
      rcases ρ.name_eq_or scopes x with hname | hname
      · rw [hname]
        exact Or.inl (List.mem_singleton_self x)
      · exact Or.inr ⟨x, hname⟩
  | .call f args, h => by
      rw [Expr.rename, Expr.identifiers, List.mem_cons] at h
      rcases h with rfl | h
      · exact Or.inl (List.mem_cons_self ..)
      · exact (Expr.mem_identifiersOfList_rename scopes args h).imp_left (List.mem_cons_of_mem f)

theorem Expr.mem_identifiersOfList_rename (scopes : Scopes) : (es : List Expr) →
    y ∈ Expr.identifiersOfList (Expr.renameList ρ scopes es) →
    y ∈ Expr.identifiersOfList es ∨ ∃ x, ρ.target? x = some y
  | [], h => nomatch h
  | e :: rest, h => by
      rw [Expr.renameList, Expr.identifiersOfList, List.mem_append] at h
      rw [Expr.identifiersOfList, List.mem_append]
      rcases h with h | h
      · exact (Expr.mem_identifiers_rename scopes e h).imp_left Or.inl
      · exact (Expr.mem_identifiersOfList_rename scopes rest h).imp_left Or.inr

end

/-- A renamed statement has its own names and new names of the renaming. -/
theorem Stmt.mem_identifiers_rename {s : Stmt} {scopes : Scopes}
    (h : y ∈ (s.rename ρ scopes).1.identifiers) :
    y ∈ s.identifiers ∨ ∃ x, ρ.target? x = some y := by
  have hexpr : ∀ {inner : Scopes} {e : Expr}, y ∈ (e.rename ρ inner).identifiers →
      y ∈ e.identifiers ∨ ∃ x, ρ.target? x = some y :=
    Expr.mem_identifiers_rename _ _
  cases s with
  | expr e => exact hexpr h
  | assign targets e =>
      rcases List.mem_append.mp h with h | h
      · obtain ⟨x, hx, rfl⟩ := List.mem_map.mp h
        rcases ρ.name_eq_or scopes x with hname | hname
        · rw [hname]
          exact Or.inl (List.mem_append_left _ hx)
        · exact Or.inr ⟨x, hname⟩
      · exact (hexpr h).imp_left (List.mem_append_right targets)
  | declare vars e =>
      cases e with
      | none => exact Or.inl h
      | some e =>
          rcases List.mem_append.mp h with h | h
          · exact Or.inl (List.mem_append_left _ h)
          · exact (hexpr h).imp_left (List.mem_append_right (TypedName.names vars))
  | branch c body => exact hexpr h
  | switch e cases => exact hexpr h
  | loop pre c post body => exact hexpr h
  | _ => exact Or.inl h

end Identifiers

theorem Stmt.nameViolations_eq_nil_iff {s : Stmt} :
    s.nameViolations = [] ↔ ∀ y ∈ s.identifiers, identifierViolations y = [] :=
  List.flatMap_eq_nil_iff

theorem Stmt.mem_identifiers_of_declared {s : Stmt} {y : String} (hy : y ∈ s.declared) :
    y ∈ s.identifiers := by
  cases s with
  | declare vars e => exact List.mem_append_left _ hy
  | _ => nomatch hy

theorem Stmt.stable_nameViolations : Stmt.Stable fun s => s.nameViolations = [] where
  resembles := by
    intro s t h hs
    cases h <;> exact hs
  rename := by
    intro ρ s scopes hρ hs
    rw [Stmt.nameViolations_eq_nil_iff] at hs ⊢
    -- A new name is declared by a statement that keeps the rule.
    intro y hy
    rcases Stmt.mem_identifiers_rename hy with hy | ⟨x, hx⟩
    · exact hs y hy
    · obtain ⟨t, ht, hdeclared⟩ := hρ x y hx
      exact Stmt.nameViolations_eq_nil_iff.mp ht y (Stmt.mem_identifiers_of_declared hdeclared)

/-! ## Switches -/

/-- What a renaming keeps of each case, it keeps of the list of cases. -/
theorem Case.map_renameFrom {β : Type} {keep : Case → β} {ρ : Renaming}
    (h : ∀ c scopes, keep ⟨c.value, (Block.renameFrom ρ c.body scopes).1⟩ = keep c)
    (cases : List Case) (scopes : Scopes) :
    (Case.renameFrom ρ cases scopes).1.map keep = cases.map keep := by
  induction cases generalizing scopes with
  | nil => rfl
  | cons c rest ih =>
      obtain ⟨value, body⟩ := c
      rw [Case.renameFrom, List.map_cons, List.map_cons, ih, h ⟨value, body⟩]

theorem Case.map_value_renameFrom (ρ : Renaming) (cases : List Case) (scopes : Scopes) :
    (Case.renameFrom ρ cases scopes).1.map Case.value = cases.map Case.value :=
  Case.map_renameFrom (fun _ _ => rfl) cases scopes

theorem Case.filterMap_value (cases : List Case) :
    cases.filterMap Case.value = (cases.map Case.value).filterMap id := by
  rw [List.filterMap_map]
  rfl

/-- The rules about default cases: there is at most one, and then the last case is one. -/
theorem defaultViolations_eq_nil_iff {scrutinee : Expr} {cases : List Case} :
    defaultViolations scrutinee cases = [] ↔
      cases.countP (fun c => c.value.isNone) ≤ 1 ∧
        ¬ (cases.countP (fun c => c.value.isNone) = 1 ∧
          cases.getLast?.any (fun c => c.value.isSome) = true) := by
  simp only [defaultViolations]
  split
  · next hseveral => exact iff_of_false nofun fun h => absurd h.1 (Nat.not_le.mpr hseveral)
  · next hone =>
      split
      · next hlast => exact iff_of_false nofun fun h => h.2 hlast
      · next hlast => exact iff_of_true rfl ⟨Nat.not_lt.mp hone, hlast⟩

/-- The rules about default cases once more: only the last case can be one. -/
theorem defaultViolations_eq_nil_iff_dropLast {scrutinee : Expr} {cases : List Case} :
    defaultViolations scrutinee cases = [] ↔ ∀ c ∈ cases.dropLast, c.value.isSome = true := by
  rcases List.eq_nil_or_concat' cases with rfl | ⟨front, last, rfl⟩
  · simp [defaultViolations]
  · have hfront : (∀ c ∈ front, c.value.isSome = true) ↔
        front.countP (fun c => c.value.isNone) = 0 := by
      simp [List.countP_eq_zero, Option.isSome_iff_ne_none]
    rw [defaultViolations_eq_nil_iff, List.dropLast_concat, hfront]
    simp only [List.countP_append, List.countP_singleton, List.getLast?_concat, Option.any_some]
    generalize front.countP (fun c => c.value.isNone) = count
    -- Together with a default case in last place there may be none in front of it.
    cases last.value with
    | none => simp
    | some l =>
        simp
        omega

/-- The rules about a switch are about the values of its cases. -/
theorem Stmt.switchViolations_congr {e e' : Expr} {cases cases' : List Case}
    (hvalues : cases'.map Case.value = cases.map Case.value)
    (h : (Stmt.switch e cases).switchViolations = []) :
    (Stmt.switch e' cases').switchViolations = [] := by
  -- All three rules about cases look at the list of values alone.
  have hcount : ∀ cs : List Case, cs.countP (fun c => c.value.isNone) =
      (cs.map Case.value).countP Option.isNone := fun cs => by
    rw [List.countP_map]
    rfl
  have hlast : ∀ cs : List Case, cs.getLast?.any (fun c => c.value.isSome) =
      (cs.map Case.value).getLast?.any Option.isSome := fun cs => by
    rw [List.getLast?_map, Option.any_map]
  cases cases with
  | nil => cases h
  | cons c cases =>
      cases cases' with
      | nil => cases hvalues
      | cons c' cases' =>
          simp only [Stmt.switchViolations, caseViolations, List.append_eq_nil_iff,
            List.map_eq_nil_iff, defaultViolations_eq_nil_iff, hcount, hlast,
            Case.filterMap_value, hvalues] at h ⊢
          exact h

theorem Stmt.stable_switchViolations : Stmt.Stable fun s => s.switchViolations = [] where
  resembles := by
    intro s t h hs
    cases h with
    | switch e hcases => exact Stmt.switchViolations_congr (Case.Resembles.map_value hcases) hs
    | _ => exact hs
  rename := by
    intro ρ s scopes _ hs
    cases s with
    | switch e cases =>
        exact Stmt.switchViolations_congr (Case.map_value_renameFrom ρ cases scopes) hs
    | _ => rfl

/-! ## Declarations -/

theorem Stmt.stable_declarationViolations :
    Stmt.Stable fun s => s.declarationViolations = [] where
  resembles := by
    intro s t h hs
    cases h <;> exact hs
  rename := by
    intro ρ s scopes _ hs
    cases s <;> exact hs

theorem Stmt.Resembles.definesOnce {s t : Stmt} (h : s.Resembles t) (hs : s.DefinesOnce) :
    t.DefinesOnce := by
  cases h with
  | refl => exact hs
  | define name params returns hbody =>
      exact List.forall_mem_singleton.mpr ((List.forall_mem_singleton.mp hs).sublist hbody)
  | branch c hbody =>
      exact List.forall_mem_singleton.mpr ((List.forall_mem_singleton.mp hs).sublist hbody)
  | switch e hcases =>
      simp only [Stmt.DefinesOnce, Stmt.blocks, List.forall_mem_map] at hs ⊢
      induction hcases with
      | nil => exact hs
      | cons hc _ ih =>
          rw [List.forall_mem_cons] at hs ⊢
          exact ⟨hs.1.sublist hc.functions, ih hs.2⟩
  | loop c hpre hpost hbody =>
      simp only [Stmt.DefinesOnce, Stmt.blocks, List.forall_mem_cons] at hs ⊢
      exact ⟨hs.1.sublist hpre, hs.2.1.sublist hpost, hs.2.2.1.sublist hbody, hs.2.2.2⟩
  | block hbody =>
      exact List.forall_mem_singleton.mpr ((List.forall_mem_singleton.mp hs).sublist hbody)

theorem Case.functions_renameFrom (ρ : Renaming) (cases : List Case) (scopes : Scopes) :
    (Case.renameFrom ρ cases scopes).1.map (fun c => Block.functions c.body) =
      cases.map fun c => Block.functions c.body :=
  Case.map_renameFrom (fun c scopes => Block.functions_renameFrom ρ c.body scopes) cases scopes

theorem Stmt.stable_definesOnce : Stmt.Stable Stmt.DefinesOnce where
  resembles := Stmt.Resembles.definesOnce
  rename := by
    intro ρ s scopes _ hs
    cases s with
    | switch e cases =>
        simp only [Stmt.DefinesOnce, Stmt.blocks, ← List.forall_mem_map (P := List.Nodup),
          List.map_map, Function.comp_def, Stmt.rename] at hs ⊢
        rw [Case.functions_renameFrom]
        exact hs
    | define | branch | loop | block =>
        simpa [Stmt.DefinesOnce, Stmt.blocks, Stmt.rename] using hs
    | _ =>
        intro c hc
        cases hc

/-! ## Control flow -/

theorem Block.flowViolations_append (b c : Block) (place : Place) :
    Block.flowViolations (b ++ c) place =
      Block.flowViolations b place ++ Block.flowViolations c place := by
  induction b with
  | nil => rfl
  | cons s rest ih =>
      rw [List.cons_append, Block.flowViolations, Block.flowViolations, ih, List.append_assoc]

theorem Block.flowViolations_append_eq_nil {b c : Block} {place : Place} :
    Block.flowViolations (b ++ c) place = [] ↔
      Block.flowViolations b place = [] ∧ Block.flowViolations c place = [] := by
  rw [Block.flowViolations_append, List.append_eq_nil_iff]

theorem Case.flowViolations_cons_eq_nil {c : Case} {cases : List Case} {place : Place} :
    Case.flowViolations (c :: cases) place = [] ↔
      Block.flowViolations c.body place = [] ∧ Case.flowViolations cases place = [] := by
  obtain ⟨value, body⟩ := c
  rw [Case.flowViolations, List.append_eq_nil_iff]

theorem Case.flowViolations_eq_nil_iff {cases : List Case} {place : Place} :
    Case.flowViolations cases place = [] ↔
      ∀ c ∈ cases, Block.flowViolations c.body place = [] := by
  induction cases with
  | nil => simp [Case.flowViolations]
  | cons c rest ih => rw [Case.flowViolations_cons_eq_nil, ih, List.forall_mem_cons]

mutual

/-- A renaming changes nothing in the flow of control. -/
theorem Stmt.flowViolations_rename (ρ : Renaming) : (s : Stmt) → (scopes : Scopes) →
    (place : Place) → (s.rename ρ scopes).1.flowViolations place = s.flowViolations place
  | .define _ _ _ body, _, _ => Block.flowViolations_renameFrom ρ body _ _
  | .branch _ body, _, _ => Block.flowViolations_renameFrom ρ body _ _
  | .switch _ cases, _, _ => Case.flowViolations_renameFrom ρ cases _ _
  | .loop pre _ post body, _, _ => by
      simp only [Stmt.rename, Stmt.flowViolations, Block.flowViolations_renameFrom ρ pre,
        Block.flowViolations_renameFrom ρ post, Block.flowViolations_renameFrom ρ body]
  | .block body, _, _ => Block.flowViolations_renameFrom ρ body _ _
  | .expr _, _, _ => rfl
  | .assign .., _, _ => rfl
  | .declare .., _, _ => rfl
  | .break, _, _ => rfl
  | .continue, _, _ => rfl
  | .leave, _, _ => rfl

theorem Block.flowViolations_renameFrom (ρ : Renaming) : (b : List Stmt) → (scopes : Scopes) →
    (place : Place) →
    Block.flowViolations (Block.renameFrom ρ b scopes).1 place = Block.flowViolations b place
  | [], _, _ => rfl
  | s :: rest, scopes, place => by
      rw [Block.renameFrom, Block.flowViolations, Block.flowViolations,
        Stmt.flowViolations_rename ρ s, Block.flowViolations_renameFrom ρ rest]

theorem Case.flowViolations_renameFrom (ρ : Renaming) : (cases : List Case) →
    (scopes : Scopes) → (place : Place) →
    Case.flowViolations (Case.renameFrom ρ cases scopes).1 place =
      Case.flowViolations cases place
  | [], _, _ => rfl
  | ⟨_, body⟩ :: rest, scopes, place => by
      rw [Case.renameFrom, Case.flowViolations, Case.flowViolations,
        Block.flowViolations_renameFrom ρ body, Case.flowViolations_renameFrom ρ rest]

end

variable {equivalent : Equivalence}

/-- Cases that may stand somewhere give up a prefix that may stand there. -/
theorem Case.flowViolations_hoistPrefix {live : Names} {e : Expr} {cases cases' : List Case}
    {hoisted : Block} (h : hoistPrefix equivalent live e cases = .ok (hoisted, cases'))
    {place : Place} (hcases : Case.flowViolations cases place = []) :
    Block.flowViolations hoisted place = [] ∧ Case.flowViolations cases' place = [] := by
  rw [Case.flowViolations_eq_nil_iff] at hcases ⊢
  refine hoistPrefix_keeps (P := fun b => Block.flowViolations b place = []) h
    Block.flowViolations_append_eq_nil (fun _ ρ b _ hb => ?_) hcases
  rw [Renaming.stmts, Block.flowViolations_renameFrom]
  exact hb

theorem Stmt.flowViolations_hoistOut {after front : Block} {live : Names} {s : Stmt}
    (h : s.hoistOut equivalent after live = .ok front) {place : Place}
    (hs : s.flowViolations place = []) : Block.flowViolations front place = [] := by
  rcases Stmt.hoistOut_eq_ok h with ⟨-, rfl⟩ | ⟨e, cases, hoisted, cases', rfl, hhoist, rfl⟩
  · rw [Block.flowViolations, Block.flowViolations, hs, List.nil_append]
  · obtain ⟨hhoisted, hcases⟩ := Case.flowViolations_hoistPrefix hhoist hs
    rw [Block.flowViolations_append_eq_nil]
    exact ⟨hhoisted, by rw [Block.flowViolations, Block.flowViolations, Stmt.flowViolations,
      hcases, List.nil_append]⟩

mutual

theorem Stmt.Hoists.flowViolations : {s s' : Stmt} → s.Hoists equivalent s' → {place : Place} →
    s.flowViolations place = [] → s'.flowViolations place = []
  | _, _, .define _ _ _ hbody, _, hs => hbody.flowViolations hs
  | _, _, .branch _ hbody, _, hs => hbody.flowViolations hs
  | _, _, .switch _ hcases, _, hs => hcases.flowViolations hs
  | _, _, .loop _ hpre hpost hbody, _, hs => by
      simp only [Stmt.flowViolations, List.append_eq_nil_iff] at hs ⊢
      exact ⟨⟨hpre.flowViolations hs.1.1, hpost.flowViolations hs.1.2⟩, hbody.flowViolations hs.2⟩
  | _, _, .block hbody, _, hs => hbody.flowViolations hs
  | _, _, .same _, _, hs => hs

/-- The pass lets no statement leave a loop or a function from outside it. -/
theorem Block.Hoists.flowViolations : {live : Names} → {b b' : List Stmt} →
    Block.Hoists equivalent live b b' → {place : Place} → Block.flowViolations b place = [] →
    Block.flowViolations b' place = []
  | _, _, _, .nil, _, _ => rfl
  | _, _, _, .cons hs hfront hrest, _, hb => by
      rw [Block.flowViolations, List.append_eq_nil_iff] at hb
      rw [Block.flowViolations_append_eq_nil]
      exact ⟨Stmt.flowViolations_hoistOut hfront (hs.flowViolations hb.1), hrest.flowViolations hb.2⟩

theorem Case.Hoists.flowViolations : {cases cases' : List Case} →
    Case.Hoists equivalent cases cases' → {place : Place} →
    Case.flowViolations cases place = [] → Case.flowViolations cases' place = []
  | _, _, .nil, _, _ => rfl
  | _, _, .cons _ hbody hrest, _, hcases => by
      rw [Case.flowViolations_cons_eq_nil] at hcases ⊢
      exact ⟨hbody.flowViolations hcases.1, hrest.flowViolations hcases.2⟩

end

/-! ## Programs -/

/-- A valid program is valid behind the pass. -/
theorem Block.IsValid.hoist {b b' : Block} (h : b.IsValid) (hb : b.hoist equivalent = .ok b') :
    b'.IsValid := by
  have hoists : Block.Hoists equivalent [] b b' := Block.hoists_of_eq_ok b hb
  obtain ⟨hnames, hswitches, hdeclarations, honce, hfunctions, hflow⟩ := Block.isValid_iff.mp h
  refine Block.isValid_iff.mpr ⟨?_, ?_, ?_, ?_, ?_, ?_⟩
  · exact hoists.each Stmt.stable_nameViolations hnames
  · exact hoists.each Stmt.stable_switchViolations hswitches
  · exact hoists.each Stmt.stable_declarationViolations hdeclarations
  · exact hoists.each Stmt.stable_definesOnce honce
  · rw [hoists.functions_eq]
    exact hfunctions
  · exact hoists.flowViolations hflow

end SwitchHoist
