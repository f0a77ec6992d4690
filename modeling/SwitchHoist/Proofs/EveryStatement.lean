import SwitchHoist.Hoisting.Pass
import SwitchHoist.Proofs.PrefixTaken

/-!
# What holds of every statement

The pass moves statements, renames what is left of a case and changes the blocks inside
statements.  A property that survives the last two, one statement at a time, holds of
every statement behind the pass if it held of every statement in front of it.
-/

namespace SwitchHoist

/-- A property of a statement and of every statement inside it. -/
def Stmt.Each (P : Stmt → Prop) (s : Stmt) : Prop :=
  ∀ t ∈ s.subtree, P t

/-- A property of every statement of a block at any depth. -/
def Block.Each (P : Stmt → Prop) (b : Block) : Prop :=
  ∀ t ∈ Block.subtrees b, P t

/-- A property of every statement of some cases at any depth. -/
def Case.Each (P : Stmt → Prop) (cases : List Case) : Prop :=
  ∀ t ∈ Case.subtrees cases, P t

section Each

variable {P : Stmt → Prop}

@[simp] theorem Block.each_nil : Block.Each P [] :=
  fun _ ht => nomatch ht

@[simp] theorem Block.each_cons {s : Stmt} {b : Block} :
    Block.Each P (s :: b) ↔ s.Each P ∧ Block.Each P b := by
  simp only [Block.Each, Stmt.Each, Block.subtrees, List.forall_mem_append]

@[simp] theorem Block.each_append {b c : Block} :
    Block.Each P (b ++ c) ↔ Block.Each P b ∧ Block.Each P c := by
  simp only [Block.Each, Block.subtrees_append, List.forall_mem_append]

@[simp] theorem Case.each_nil : Case.Each P [] :=
  fun _ ht => nomatch ht

@[simp] theorem Case.each_cons {c : Case} {cases : List Case} :
    Case.Each P (c :: cases) ↔ Block.Each P c.body ∧ Case.Each P cases := by
  obtain ⟨value, body⟩ := c
  simp only [Case.Each, Block.Each, Case.subtrees, List.forall_mem_append]

theorem Case.each_iff {cases : List Case} :
    Case.Each P cases ↔ ∀ c ∈ cases, Block.Each P c.body := by
  induction cases with
  | nil => simp
  | cons c cases ih => rw [Case.each_cons, ih, List.forall_mem_cons]

@[simp] theorem Stmt.each_define {name : String} {params returns : List TypedName}
    {body : Block} :
    (Stmt.define name params returns body).Each P ↔
      P (.define name params returns body) ∧ Block.Each P body :=
  List.forall_mem_cons

@[simp] theorem Stmt.each_branch {c : Expr} {body : Block} :
    (Stmt.branch c body).Each P ↔ P (.branch c body) ∧ Block.Each P body :=
  List.forall_mem_cons

@[simp] theorem Stmt.each_switch {e : Expr} {cases : List Case} :
    (Stmt.switch e cases).Each P ↔ P (.switch e cases) ∧ Case.Each P cases :=
  List.forall_mem_cons

@[simp] theorem Stmt.each_loop {pre post body : Block} {c : Expr} :
    (Stmt.loop pre c post body).Each P ↔
      P (.loop pre c post body) ∧ Block.Each P pre ∧ Block.Each P post ∧ Block.Each P body := by
  simp only [Stmt.Each, Block.Each, Stmt.subtree, List.forall_mem_cons, List.forall_mem_append,
    and_assoc]

@[simp] theorem Stmt.each_block {body : Block} :
    (Stmt.block body).Each P ↔ P (.block body) ∧ Block.Each P body :=
  List.forall_mem_cons

theorem Stmt.Each.head {s : Stmt} (h : s.Each P) : P s :=
  h s s.mem_subtree_self

theorem Stmt.Each.blocks {s : Stmt} (h : s.Each P) : ∀ b ∈ s.blocks, Block.Each P b := by
  cases s with
  | define name params returns body => simpa [Stmt.blocks] using (Stmt.each_define.mp h).2
  | branch c body => simpa [Stmt.blocks] using (Stmt.each_branch.mp h).2
  | switch e cases => simpa [Stmt.blocks, ← Case.each_iff] using (Stmt.each_switch.mp h).2
  | loop pre c post body => simpa [Stmt.blocks] using (Stmt.each_loop.mp h).2
  | block body => simpa [Stmt.blocks] using (Stmt.each_block.mp h).2
  | _ => exact fun _ hb => nomatch hb

theorem Stmt.each_iff {s : Stmt} : s.Each P ↔ P s ∧ ∀ b ∈ s.blocks, Block.Each P b := by
  refine ⟨fun h => ⟨h.head, h.blocks⟩, fun ⟨hs, hblocks⟩ => ?_⟩
  cases s with
  | define name params returns body =>
      exact Stmt.each_define.mpr ⟨hs, List.forall_mem_singleton.mp hblocks⟩
  | branch c body => exact Stmt.each_branch.mpr ⟨hs, List.forall_mem_singleton.mp hblocks⟩
  | switch e cases =>
      exact Stmt.each_switch.mpr ⟨hs, Case.each_iff.mpr (List.forall_mem_map.mp hblocks)⟩
  | loop pre c post body =>
      simp only [Stmt.blocks, List.forall_mem_cons] at hblocks
      exact Stmt.each_loop.mpr ⟨hs, hblocks.1, hblocks.2.1, hblocks.2.2.1⟩
  | block body => exact Stmt.each_block.mpr ⟨hs, List.forall_mem_singleton.mp hblocks⟩
  | _ => exact List.forall_mem_singleton.mpr hs

theorem Block.each_iff {b : Block} : Block.Each P b ↔ ∀ s ∈ b, s.Each P := by
  induction b with
  | nil => simp
  | cons s b ih => rw [Block.each_cons, ih, List.forall_mem_cons]

theorem Block.Each.mem {b : Block} (h : Block.Each P b) {s : Stmt} (hs : s ∈ b) : s.Each P :=
  Block.each_iff.mp h s hs

end Each

/-- Cases with the same value, of which the second may define fewer functions. -/
structure Case.Resembles (c c' : Case) : Prop where
  value : c'.value = c.value
  functions : (Block.functions c'.body).Sublist (Block.functions c.body)

/-- Statements that may differ in the blocks inside them only, where the second may define
fewer functions. -/
inductive Stmt.Resembles : Stmt → Stmt → Prop where
  | refl (s : Stmt) : Resembles s s
  | define (name : String) (params returns : List TypedName) {body body' : Block} :
      (Block.functions body').Sublist (Block.functions body) →
      Resembles (.define name params returns body) (.define name params returns body')
  | branch (c : Expr) {body body' : Block} :
      (Block.functions body').Sublist (Block.functions body) →
      Resembles (.branch c body) (.branch c body')
  | switch (e : Expr) {cases cases' : List Case} :
      List.Forall₂ Case.Resembles cases cases' → Resembles (.switch e cases) (.switch e cases')
  | loop (c : Expr) {pre pre' post post' body body' : Block} :
      (Block.functions pre').Sublist (Block.functions pre) →
      (Block.functions post').Sublist (Block.functions post) →
      (Block.functions body').Sublist (Block.functions body) →
      Resembles (.loop pre c post body) (.loop pre' c post' body')
  | block {body body' : Block} : (Block.functions body').Sublist (Block.functions body) →
      Resembles (.block body) (.block body')

theorem Case.Resembles.map_value {cases cases' : List Case}
    (h : List.Forall₂ Case.Resembles cases cases') :
    cases'.map Case.value = cases.map Case.value := by
  induction h with
  | nil => rfl
  | cons hc _ ih => rw [List.map_cons, List.map_cons, hc.value, ih]

theorem Stmt.Resembles.declared_eq {s t : Stmt} (h : s.Resembles t) : s.declared = t.declared := by
  cases h <;> rfl

/-- A property that says nothing about the blocks inside a statement, and that survives
renaming to names declared by statements that have the property. -/
structure Stmt.Stable (P : Stmt → Prop) : Prop where
  resembles : ∀ {s t : Stmt}, s.Resembles t → P s → P t
  rename : ∀ {ρ : Renaming} {s : Stmt} (scopes : Scopes),
    (∀ x y, ρ.target? x = some y → ∃ t, P t ∧ y ∈ t.declared) → P s → P (s.rename ρ scopes).1

/-! ## Renaming -/

section Renaming

variable {P : Stmt → Prop} {ρ : Renaming}

mutual

theorem Stmt.Each.rename (hP : Stmt.Stable P)
    (hρ : ∀ x y, ρ.target? x = some y → ∃ t, P t ∧ y ∈ t.declared) :
    (s : Stmt) → (scopes : Scopes) → s.Each P → (s.rename ρ scopes).1.Each P
  | .define name params returns body, scopes, h => by
      have hhead := hP.rename scopes hρ h.head
      rw [Stmt.each_define] at h
      exact Stmt.each_define.mpr ⟨hhead, Block.Each.renameFrom hP hρ body _ h.2⟩
  | .branch c body, scopes, h => by
      have hhead := hP.rename scopes hρ h.head
      rw [Stmt.each_branch] at h
      exact Stmt.each_branch.mpr ⟨hhead, Block.Each.renameFrom hP hρ body _ h.2⟩
  | .switch e cases, scopes, h => by
      have hhead := hP.rename scopes hρ h.head
      rw [Stmt.each_switch] at h
      exact Stmt.each_switch.mpr ⟨hhead, Case.Each.renameFrom hP hρ cases _ h.2⟩
  | .loop pre c post body, scopes, h => by
      have hhead := hP.rename scopes hρ h.head
      rw [Stmt.each_loop] at h
      exact Stmt.each_loop.mpr ⟨hhead, Block.Each.renameFrom hP hρ pre _ h.2.1,
        Block.Each.renameFrom hP hρ post _ h.2.2.1, Block.Each.renameFrom hP hρ body _ h.2.2.2⟩
  | .block body, scopes, h => by
      have hhead := hP.rename scopes hρ h.head
      rw [Stmt.each_block] at h
      exact Stmt.each_block.mpr ⟨hhead, Block.Each.renameFrom hP hρ body _ h.2⟩
  | .expr _, scopes, h => List.forall_mem_singleton.mpr (hP.rename scopes hρ h.head)
  | .assign .., scopes, h => List.forall_mem_singleton.mpr (hP.rename scopes hρ h.head)
  | .declare .., scopes, h =>
      List.forall_mem_singleton.mpr (hP.rename scopes hρ h.head)
  | .break, _, h => h
  | .continue, _, h => h
  | .leave, _, h => h

theorem Block.Each.renameFrom (hP : Stmt.Stable P)
    (hρ : ∀ x y, ρ.target? x = some y → ∃ t, P t ∧ y ∈ t.declared) :
    (b : List Stmt) → (scopes : Scopes) → Block.Each P b →
      Block.Each P (Block.renameFrom ρ b scopes).1
  | [], _, _ => Block.each_nil
  | s :: rest, scopes, h => by
      rw [Block.each_cons] at h
      exact Block.each_cons.mpr ⟨Stmt.Each.rename hP hρ s scopes h.1,
        Block.Each.renameFrom hP hρ rest _ h.2⟩

theorem Case.Each.renameFrom (hP : Stmt.Stable P)
    (hρ : ∀ x y, ρ.target? x = some y → ∃ t, P t ∧ y ∈ t.declared) :
    (cases : List Case) → (scopes : Scopes) → Case.Each P cases →
      Case.Each P (Case.renameFrom ρ cases scopes).1
  | [], _, _ => Case.each_nil
  | ⟨value, body⟩ :: rest, scopes, h => by
      rw [Case.each_cons] at h
      exact Case.each_cons.mpr ⟨Block.Each.renameFrom hP hρ body _ h.1,
        Case.Each.renameFrom hP hρ rest _ h.2⟩

end

end Renaming

/-! ## Taking a prefix -/

theorem Renaming.target?_insertAll {ρ : Renaming} {xs ys : List String} {x y : String}
    (h : (ρ.insertAll xs ys).target? x = some y) : ρ.target? x = some y ∨ y ∈ ys := by
  induction xs generalizing ρ ys with
  | nil => exact Or.inl h
  | cons x' xs ih =>
      cases ys with
      | nil => exact Or.inl h
      | cons y' ys =>
          rcases ih (ρ := ρ.insert x' y') h with h | h
          · rw [Renaming.target?_insert] at h
            split at h
            · cases h
              exact Or.inr (List.mem_cons_self ..)
            · exact Or.inl h
          · exact Or.inr (List.mem_cons_of_mem _ h)

/-- What is left of a case behind a run is the end of the case, and it is renamed to
names that the taken statements declare. -/
theorem Follower.Run.rest {equivalent : Equivalence} {taken : Names} {b : Block}
    {f g : Follower} (h : Follower.Run equivalent taken b f g) :
    g.value = f.value ∧ (∃ front, f.rest = front ++ g.rest) ∧
      ∀ x y, g.renames.target? x = some y → f.renames.target? x = some y ∨ y ∈ Block.declared b := by
  induction h with
  | done => exact ⟨rfl, ⟨[], rfl⟩, fun _ _ h => Or.inl h⟩
  | @step taken s t b f g h hstep _ ih =>
      obtain ⟨hvalue, ⟨front, hrest⟩, htarget⟩ := ih
      refine ⟨hvalue.trans hstep.value, ⟨t :: front, ?_⟩, fun x y hxy => ?_⟩
      · rw [hstep.rest, hrest, List.cons_append]
      · rw [Block.declared_cons, List.mem_append]
        rcases htarget x y hxy with hxy | hy
        · rw [hstep.renames] at hxy
          exact (Renaming.target?_insertAll hxy).imp_right Or.inl
        · exact Or.inr (Or.inr hy)

theorem Block.Each.of_declared {P : Stmt → Prop} {b : Block} (h : Block.Each P b) {y : String}
    (hy : y ∈ Block.declared b) : ∃ t, P t ∧ y ∈ t.declared := by
  obtain ⟨t, ht, hy⟩ := List.mem_flatMap.mp hy
  exact ⟨t, (h.mem ht).head, hy⟩

@[simp] theorem Stmt.defined?_rename (ρ : Renaming) (s : Stmt) (scopes : Scopes) :
    (s.rename ρ scopes).1.defined? = s.defined? := by
  cases s <;> rfl

@[simp] theorem Block.functions_renameFrom (ρ : Renaming) (b : Block) (scopes : Scopes) :
    Block.functions (Block.renameFrom ρ b scopes).1 = Block.functions b := by
  induction b generalizing scopes with
  | nil => rfl
  | cons s rest ih =>
      simp only [Block.functions] at ih
      simp only [Block.functions, Block.renameFrom, List.filterMap_cons, Stmt.defined?_rename, ih]

theorem Block.functions_sublist (b c : Block) :
    (Block.functions c).Sublist (Block.functions (b ++ c)) := by
  rw [Block.functions, Block.functions, List.filterMap_append]
  exact List.sublist_append_right _ _

/-- What is left of a case behind a prefix is the end of the case, renamed to names that the
prefix declares. -/
structure Case.Trimmed (hoisted : Block) (c c' : Case) : Prop where
  value : c'.value = c.value
  body : ∃ (front rest : Block) (ρ : Renaming), c.body = front ++ rest ∧ c'.body = ρ.stmts rest ∧
    ∀ x y, ρ.target? x = some y → y ∈ Block.declared hoisted

theorem Follower.Run.trimmed {equivalent : Equivalence} {hoisted : Block} {c : Case} {g : Follower}
    (h : Follower.Run equivalent [] hoisted (Follower.ofCase c) g) :
    c.Trimmed hoisted g.toCase := by
  obtain ⟨hvalue, ⟨front, hbody⟩, htarget⟩ := h.rest
  refine ⟨hvalue, front, g.rest, g.renames, hbody, rfl, fun x y hxy => ?_⟩
  -- The renaming of a case starts out empty.
  rcases htarget x y hxy with hnone | hy
  · cases hnone
  · exact hy

/-- The prefix is the front of the first case, of which the rest is left, and every other case is
trimmed. -/
theorem hoistPrefix_trimmed {equivalent : Equivalence} {live : Names} {scrutinee : Expr}
    {cases cases' : List Case} {hoisted : Block}
    (h : hoistPrefix equivalent live scrutinee cases = .ok (hoisted, cases')) :
    ∃ first others rest others', cases = first :: others ∧ first.body = hoisted ++ rest ∧
      cases' = ⟨first.value, rest⟩ :: others' ∧
      List.Forall₂ (Case.Trimmed hoisted) others others' := by
  obtain ⟨first, others, rest, followers, hcases, hfirst, hcases', -, hruns⟩ :=
    hoistPrefix_eq_ok h
  refine ⟨first, others, rest, followers.map Follower.toCase, hcases, hfirst, hcases', ?_⟩
  rw [List.forall₂_map_right_iff]
  exact hruns.imp fun c g hrun => hrun.trimmed

theorem Case.Trimmed.resembles {hoisted : Block} {c c' : Case} (h : c.Trimmed hoisted c') :
    c.Resembles c' := by
  obtain ⟨front, rest, ρ, hbody, hrest, -⟩ := h.body
  refine ⟨h.value, ?_⟩
  rw [hbody, hrest, Renaming.stmts, Block.functions_renameFrom]
  exact Block.functions_sublist front rest

/-- Taking the prefix keeps the cases, but for what it takes. -/
theorem hoistPrefix_resembles {equivalent : Equivalence} {live : Names} {scrutinee : Expr}
    {cases cases' : List Case} {hoisted : Block}
    (h : hoistPrefix equivalent live scrutinee cases = .ok (hoisted, cases')) :
    List.Forall₂ Case.Resembles cases cases' := by
  obtain ⟨first, others, rest, others', rfl, hfirst, rfl, hothers⟩ := hoistPrefix_trimmed h
  refine .cons ⟨rfl, ?_⟩ (hothers.imp fun c c' hc => hc.resembles)
  rw [hfirst]
  exact Block.functions_sublist hoisted rest

/-- What holds of a block exactly if it holds of its parts, and survives a renaming to names of the
prefix, holds of the prefix and of what is left of the cases. -/
theorem hoistPrefix_keeps {P : Block → Prop} {equivalent : Equivalence} {live : Names}
    {scrutinee : Expr} {cases cases' : List Case} {hoisted : Block}
    (h : hoistPrefix equivalent live scrutinee cases = .ok (hoisted, cases'))
    (happend : ∀ {b c : Block}, P (b ++ c) ↔ P b ∧ P c)
    (hrename : P hoisted → ∀ {ρ : Renaming} {b : Block},
      (∀ x y, ρ.target? x = some y → y ∈ Block.declared hoisted) → P b → P (ρ.stmts b))
    (hcases : ∀ c ∈ cases, P c.body) : P hoisted ∧ ∀ c ∈ cases', P c.body := by
  obtain ⟨first, others, rest, others', rfl, hfirst, rfl, htrimmed⟩ := hoistPrefix_trimmed h
  rw [List.forall_mem_cons, hfirst, happend] at hcases
  obtain ⟨⟨hhoisted, hrest⟩, hothers⟩ := hcases
  refine ⟨hhoisted, List.forall_mem_cons.mpr ⟨hrest, ?_⟩⟩
  clear h
  induction htrimmed with
  | nil => exact List.forall_mem_nil _
  | cons hc _ ih =>
      obtain ⟨front, own, ρ, hbody, hleft, htarget⟩ := hc.body
      rw [List.forall_mem_cons, hbody, happend] at hothers
      rw [List.forall_mem_cons, hleft]
      exact ⟨hrename hhoisted htarget hothers.1.2, ih hothers.2⟩

/-- A stable property of all statements of the cases holds of the prefix and of what is
left of the cases. -/
theorem Case.Each.hoistPrefix {P : Stmt → Prop} (hP : Stmt.Stable P) {equivalent : Equivalence}
    {live : Names} {scrutinee : Expr} {cases cases' : List Case} {hoisted : Block}
    (h : SwitchHoist.hoistPrefix equivalent live scrutinee cases = .ok (hoisted, cases'))
    (heach : Case.Each P cases) : Block.Each P hoisted ∧ Case.Each P cases' := by
  rw [Case.each_iff] at heach ⊢
  refine hoistPrefix_keeps h Block.each_append (fun hhoisted ρ b htarget hb => ?_) heach
  exact Block.Each.renameFrom hP (fun x y hxy => hhoisted.of_declared (htarget x y hxy)) b _ hb

end SwitchHoist
