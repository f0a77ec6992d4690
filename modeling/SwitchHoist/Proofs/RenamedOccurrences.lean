import SwitchHoist.Proofs.ScopesRestored

/-!
# What a renaming changes

A renaming and a walk go through statements apart from each other, each with scopes of its own.
The renaming changes the names of just those occurrences that the walk finds free, and nothing
else.

That nothing else changes is said with the names at all occurrences blanked out.  Statements are
determined by what is left then and by the names in the order of the walk, since the names can be
filled in again.
-/

namespace SwitchHoist

/-! ## Statements without the names of their variables -/

mutual

/-- An expression with its variables blanked out. -/
def Expr.blanked : Expr → Expr
  | .literal l => .literal l
  | .variable _ => .variable ""
  | .call f args => .call f (Expr.blankedList args)

/-- Expressions with their variables blanked out. -/
def Expr.blankedList : List Expr → List Expr
  | [] => []
  | e :: rest => e.blanked :: Expr.blankedList rest

end

mutual

/-- A statement with the variables that it reads or writes blanked out; what it declares or
defines stays. -/
def Stmt.blanked : Stmt → Stmt
  | .expr e => .expr e.blanked
  | .assign targets value => .assign (targets.map fun _ => "") value.blanked
  | .declare vars value => .declare vars (value.map Expr.blanked)
  | .define name params returns body => .define name params returns (Block.blanked body)
  | .branch condition body => .branch condition.blanked (Block.blanked body)
  | .switch scrutinee cases => .switch scrutinee.blanked (Case.blanked cases)
  | .loop pre condition post body =>
      .loop (Block.blanked pre) condition.blanked (Block.blanked post) (Block.blanked body)
  | .break => .break
  | .continue => .continue
  | .leave => .leave
  | .block body => .block (Block.blanked body)

/-- The statements of a block with their variables blanked out. -/
def Block.blanked : List Stmt → List Stmt
  | [] => []
  | s :: rest => s.blanked :: Block.blanked rest

/-- The cases of a switch with their variables blanked out. -/
def Case.blanked : List Case → List Case
  | [] => []
  | ⟨value, body⟩ :: rest => ⟨value, Block.blanked body⟩ :: Case.blanked rest

end

/-! ## Filling in the names -/

mutual

/-- An expression with names put in for its variables, in the order of evaluation, and the names
that are left over. -/
def Expr.filled : Expr → List String → Expr × List String
  | .literal l, names => (.literal l, names)
  | .variable _, names => (.variable (names.headD ""), names.tail)
  | .call f args, names =>
      let r := Expr.filledList args names
      (.call f r.1, r.2)

/-- Expressions with names put in for their variables. -/
def Expr.filledList : List Expr → List String → List Expr × List String
  | [], names => ([], names)
  | e :: rest, names =>
      let first := e.filled names
      let others := Expr.filledList rest first.2
      (first.1 :: others.1, others.2)

end

/-- The value of a declaration with names put in for its variables. -/
def Expr.filledOption : Option Expr → List String → Option Expr × List String
  | none, names => (none, names)
  | some e, names =>
      let r := e.filled names
      (some r.1, r.2)

mutual

/-- A statement with names put in for its occurrences, in the order of the walk, and the names
that are left over. -/
def Stmt.filled : Stmt → List String → Stmt × List String
  | .expr e, names =>
      let r := e.filled names
      (.expr r.1, r.2)
  | .assign targets value, names =>
      let r := value.filled names
      (.assign (r.2.take targets.length) r.1, r.2.drop targets.length)
  | .declare vars value, names =>
      let r := Expr.filledOption value names
      (.declare vars r.1, r.2)
  | .define name params returns body, names =>
      let r := Block.filled body names
      (.define name params returns r.1, r.2)
  | .branch condition body, names =>
      let first := condition.filled names
      let second := Block.filled body first.2
      (.branch first.1 second.1, second.2)
  | .switch scrutinee cases, names =>
      let first := scrutinee.filled names
      let second := Case.filled cases first.2
      (.switch first.1 second.1, second.2)
  | .loop pre condition post body, names =>
      let first := Block.filled pre names
      let second := condition.filled first.2
      let third := Block.filled post second.2
      let fourth := Block.filled body third.2
      (.loop first.1 second.1 third.1 fourth.1, fourth.2)
  | .break, names => (.break, names)
  | .continue, names => (.continue, names)
  | .leave, names => (.leave, names)
  | .block body, names =>
      let r := Block.filled body names
      (.block r.1, r.2)

/-- The statements of a block with names put in for their occurrences. -/
def Block.filled : List Stmt → List String → List Stmt × List String
  | [], names => ([], names)
  | s :: rest, names =>
      let first := s.filled names
      let others := Block.filled rest first.2
      (first.1 :: others.1, others.2)

/-- The cases of a switch with names put in for their occurrences. -/
def Case.filled : List Case → List String → List Case × List String
  | [], names => ([], names)
  | ⟨value, body⟩ :: rest, names =>
      let first := Block.filled body names
      let others := Case.filled rest first.2
      (⟨value, first.1⟩ :: others.1, others.2)

end

@[simp] theorem Expr.map_name_reads (e : Expr) (scopes : Scopes) :
    (e.reads scopes).map Occurrence.name = e.variableNames := by
  simp [Expr.reads, Function.comp_def]

mutual

theorem Expr.filled_blanked : (e : Expr) → (rest : List String) →
    e.blanked.filled (e.variableNames ++ rest) = (e, rest)
  | .literal _, _ => rfl
  | .variable _, _ => rfl
  | .call _ args, rest => by
      simp [Expr.blanked, Expr.filled, Expr.variableNames, Expr.filledList_blankedList args rest]

theorem Expr.filledList_blankedList : (es : List Expr) → (rest : List String) →
    Expr.filledList (Expr.blankedList es) (Expr.variableNamesOfList es ++ rest) = (es, rest)
  | [], _ => rfl
  | e :: es, rest => by
      simp [Expr.blankedList, Expr.filledList, Expr.variableNamesOfList, Expr.filled_blanked e,
        Expr.filledList_blankedList es rest]

end

theorem Expr.filledOption_blanked (e : Option Expr) (scopes : Scopes) (rest : List String) :
    Expr.filledOption (e.map Expr.blanked)
      ((Expr.readsOfOption e scopes).map Occurrence.name ++ rest) = (e, rest) := by
  cases e with
  | none => rfl
  | some e => simp [Expr.readsOfOption, Expr.filledOption, Expr.filled_blanked]

mutual

/-- A statement comes back when its own names are filled in. -/
theorem Stmt.filled_blanked : (s : Stmt) → (scopes : Scopes) → (rest : List String) →
    s.blanked.filled ((s.walk scopes).1.map Occurrence.name ++ rest) = (s, rest)
  | .expr e, scopes, rest => by
      simp [Stmt.blanked, Stmt.filled, Stmt.walk, Expr.filled_blanked]
  | .assign targets value, scopes, rest => by
      simp [Stmt.blanked, Stmt.filled, Stmt.walk, Expr.filled_blanked, Function.comp_def]
  | .declare vars value, scopes, rest => by
      simp [Stmt.blanked, Stmt.filled, Stmt.walk, Expr.filledOption_blanked]
  | .define _ _ _ body, scopes, rest => by
      simp [Stmt.blanked, Stmt.filled, Stmt.walk, Block.filled_blanked body]
  | .branch c body, scopes, rest => by
      simp [Stmt.blanked, Stmt.filled, Stmt.walk, Expr.filled_blanked, Block.filled_blanked body]
  | .switch e cases, scopes, rest => by
      simp [Stmt.blanked, Stmt.filled, Stmt.walk, Expr.filled_blanked, Case.filled_blanked cases]
  | .loop pre c post body, scopes, rest => by
      simp [Stmt.blanked, Stmt.filled, Stmt.walk, Expr.filled_blanked, Block.filled_blanked pre,
        Block.filled_blanked post, Block.filled_blanked body]
  | .break, _, _ => rfl
  | .continue, _, _ => rfl
  | .leave, _, _ => rfl
  | .block body, scopes, rest => by
      simp [Stmt.blanked, Stmt.filled, Stmt.walk, Block.filled_blanked body]

theorem Block.filled_blanked : (b : List Stmt) → (scopes : Scopes) → (rest : List String) →
    Block.filled (Block.blanked b) ((Block.walk b scopes).1.map Occurrence.name ++ rest) =
      (b, rest)
  | [], _, _ => rfl
  | s :: b, scopes, rest => by
      simp [Block.blanked, Block.filled, Block.walk, Stmt.filled_blanked s,
        Block.filled_blanked b]

theorem Case.filled_blanked : (cases : List Case) → (scopes : Scopes) → (rest : List String) →
    Case.filled (Case.blanked cases) ((Case.walk cases scopes).1.map Occurrence.name ++ rest) =
      (cases, rest)
  | [], _, _ => rfl
  | ⟨_, body⟩ :: cases, scopes, rest => by
      simp [Case.blanked, Case.filled, Case.walk, Block.filled_blanked body,
        Case.filled_blanked cases]

end

/-- Statements that differ in the names of their occurrences at most, and have the same names
there, are the same. -/
theorem Block.eq_of_blanked_eq {b c : Block} (h : Block.blanked b = Block.blanked c)
    (hnames : b.occurrences.map Occurrence.name = c.occurrences.map Occurrence.name) : b = c := by
  have hb := Block.filled_blanked b .initial []
  have hc := Block.filled_blanked c .initial []
  rw [← Block.occurrences, h, hnames] at hb
  exact congrArg Prod.fst (hb.symm.trans hc)

/-! ## Renamed statements -/

mutual

theorem Expr.blanked_rename (ρ : Renaming) (scopes : Scopes) : (e : Expr) →
    (e.rename ρ scopes).blanked = e.blanked
  | .literal _ => rfl
  | .variable _ => rfl
  | .call _ args => by
      rw [Expr.rename, Expr.blanked, Expr.blanked, Expr.blankedList_renameList ρ scopes args]

theorem Expr.blankedList_renameList (ρ : Renaming) (scopes : Scopes) : (es : List Expr) →
    Expr.blankedList (Expr.renameList ρ scopes es) = Expr.blankedList es
  | [] => rfl
  | e :: es => by
      rw [Expr.renameList, Expr.blankedList, Expr.blankedList, Expr.blanked_rename ρ scopes e,
        Expr.blankedList_renameList ρ scopes es]

end

mutual

/-- A renaming changes the names of occurrences only. -/
theorem Stmt.blanked_rename (ρ : Renaming) : (s : Stmt) → (scopes : Scopes) →
    (s.rename ρ scopes).1.blanked = s.blanked
  | .expr e, scopes => by simp [Stmt.rename, Stmt.blanked, Expr.blanked_rename]
  | .assign _ e, scopes => by
      simp [Stmt.rename, Stmt.blanked, Expr.blanked_rename, Function.comp_def]
  | .declare _ e, scopes => by
      simp [Stmt.rename, Stmt.blanked, Expr.blanked_rename, Function.comp_def]
  | .define _ _ _ body, scopes => by
      simp [Stmt.rename, Stmt.blanked, Block.blanked_renameFrom ρ body]
  | .branch _ body, scopes => by
      simp [Stmt.rename, Stmt.blanked, Expr.blanked_rename, Block.blanked_renameFrom ρ body]
  | .switch _ cases, scopes => by
      simp [Stmt.rename, Stmt.blanked, Expr.blanked_rename, Case.blanked_renameFrom ρ cases]
  | .loop pre _ post body, scopes => by
      simp [Stmt.rename, Stmt.blanked, Expr.blanked_rename, Block.blanked_renameFrom ρ pre,
        Block.blanked_renameFrom ρ post, Block.blanked_renameFrom ρ body]
  | .break, _ => rfl
  | .continue, _ => rfl
  | .leave, _ => rfl
  | .block body, scopes => by simp [Stmt.rename, Stmt.blanked, Block.blanked_renameFrom ρ body]

theorem Block.blanked_renameFrom (ρ : Renaming) : (b : List Stmt) → (scopes : Scopes) →
    Block.blanked (Block.renameFrom ρ b scopes).1 = Block.blanked b
  | [], _ => rfl
  | s :: rest, scopes => by
      simp [Block.renameFrom, Block.blanked, Stmt.blanked_rename ρ s,
        Block.blanked_renameFrom ρ rest]

theorem Case.blanked_renameFrom (ρ : Renaming) : (cases : List Case) → (scopes : Scopes) →
    Case.blanked (Case.renameFrom ρ cases scopes).1 = Case.blanked cases
  | [], _ => rfl
  | ⟨_, body⟩ :: rest, scopes => by
      simp [Case.renameFrom, Case.blanked, Block.blanked_renameFrom ρ body,
        Case.blanked_renameFrom ρ rest]

end

namespace Renaming

/-- An occurrence behind a renaming that goes on below a base: a name from outside is replaced,
unless the base binds it. -/
def occurrence (ρ : Renaming) (base : Scopes) (o : Occurrence) : Occurrence :=
  { o with name := if o.isFree then ρ.name base o.name else o.name }

theorem occurrence_of_free {ρ : Renaming} {o : Occurrence} (h : o.isFree = true)
    (base : Scopes) : ρ.occurrence base o = { o with name := ρ.name base o.name } := by
  rw [occurrence, if_pos h]

theorem occurrence_of_bound {ρ : Renaming} {o : Occurrence} (h : o.isFree = false)
    (base : Scopes) : ρ.occurrence base o = o := by
  rw [occurrence, if_neg (by simp [h])]

theorem target?_eq_none {ρ : Renaming} {x : String} (h : ∀ entry ∈ ρ, entry.1 ≠ x) :
    ρ.target? x = none := by
  rw [target?, List.lookup_eq_none_iff]
  exact fun entry hentry => bne_iff_ne.mpr (h entry hentry).symm

theorem name_initial (ρ : Renaming) (x : String) :
    ρ.name .initial x = (ρ.target? x).getD x := by
  cases hx : ρ.target? x <;> simp [name, hx]

/-- The scopes of a renaming that goes on below a base agree with the base and with those of a walk
that starts afresh, on all names that have a new name. -/
def Follows (ρ : Renaming) (base inner scopes : Scopes) : Prop :=
  ∀ x, ρ.maps x = true → inner.binds x = (scopes.binds x || base.binds x)

variable {ρ : Renaming} {base inner scopes : Scopes}

theorem follows_initial (ρ : Renaming) (base : Scopes) : ρ.Follows base base .initial := by
  intro x _
  simp

theorem Follows.push (h : ρ.Follows base inner scopes) :
    ρ.Follows base inner.push scopes.push := by
  intro x hx
  rw [Scopes.binds_push, Scopes.binds_push]
  exact h x hx

theorem Follows.bindAll (h : ρ.Follows base inner scopes) (xs : List String) :
    ρ.Follows base (inner.bindAll (xs.filter ρ.maps)) (scopes.bindAll xs) := by
  intro x hx
  have hmem : (xs.filter ρ.maps).contains x = xs.contains x := by simp [hx]
  rw [Scopes.binds_bindAll, Scopes.binds_bindAll, h x hx, hmem, Bool.or_assoc]

/-- An occurrence is renamed in the scopes of the renaming as the walk says. -/
theorem Follows.name_eq (h : ρ.Follows base inner scopes) (x : String) (access : Access) :
    (⟨ρ.name inner x, access, scopes⟩ : Occurrence) = ρ.occurrence base ⟨x, access, scopes⟩ := by
  have hname : ρ.name inner x = if scopes.binds x then x else ρ.name base x := by
    cases hx : ρ.target? x with
    | none => simp [name, hx]
    | some y =>
        simp only [name, hx, h x (by simp [maps, hx])]
        grind
  rw [occurrence, hname]
  cases hb : scopes.binds x <;> simp [Occurrence.isFree, hb]

end Renaming

section Walk

variable {ρ : Renaming} {base : Scopes}

mutual

theorem Expr.variableNames_rename (ρ : Renaming) (scopes : Scopes) : (e : Expr) →
    (e.rename ρ scopes).variableNames = e.variableNames.map (ρ.name scopes)
  | .literal _ => rfl
  | .variable _ => rfl
  | .call _ args => by
      rw [Expr.rename, Expr.variableNames, Expr.variableNames,
        Expr.variableNamesOfList_renameList ρ scopes args]

theorem Expr.variableNamesOfList_renameList (ρ : Renaming) (scopes : Scopes) :
    (es : List Expr) → Expr.variableNamesOfList (Expr.renameList ρ scopes es) =
      (Expr.variableNamesOfList es).map (ρ.name scopes)
  | [] => rfl
  | e :: es => by
      rw [Expr.renameList, Expr.variableNamesOfList, Expr.variableNamesOfList, List.map_append,
        Expr.variableNames_rename ρ scopes e, Expr.variableNamesOfList_renameList ρ scopes es]

end

theorem Expr.reads_rename {inner scopes : Scopes} (h : ρ.Follows base inner scopes) (e : Expr) :
    (e.rename ρ inner).reads scopes = (e.reads scopes).map (ρ.occurrence base) := by
  simp [Expr.reads, Expr.variableNames_rename, h.name_eq]

theorem Expr.readsOfOption_rename {inner scopes : Scopes} (h : ρ.Follows base inner scopes)
    (e : Option Expr) :
    Expr.readsOfOption (e.map (Expr.rename ρ inner)) scopes =
      (Expr.readsOfOption e scopes).map (ρ.occurrence base) := by
  cases e with
  | none => rfl
  | some e => exact Expr.reads_rename h e

mutual

/-- A walk through renamed statements meets the same occurrences, those that are free under their
new names. -/
theorem Stmt.walk_rename : (s : Stmt) → {inner scopes : Scopes} → ρ.Follows base inner scopes →
    ((s.rename ρ inner).1.walk scopes).1 = (s.walk scopes).1.map (ρ.occurrence base)
  | .expr e, _, _, h => Expr.reads_rename h e
  | .assign targets e, _, _, h => by
      simp [Stmt.rename, Stmt.walk, Expr.reads_rename h, h.name_eq]
  | .declare _ e, _, _, h => Expr.readsOfOption_rename h e
  | .define _ params returns body, _, _, h => by
      rw [Stmt.rename, Renaming.declare_append]
      exact Block.walk_renameFrom body (h.push.bindAll _).push
  | .branch c body, _, _, h => by
      simp only [Stmt.rename, Stmt.walk, List.map_append]
      rw [Expr.reads_rename h, Block.walk_renameFrom body h.push]
  | .switch e cases, _, _, h => by
      simp only [Stmt.rename, Stmt.walk, List.map_append]
      rw [Expr.reads_rename h, Case.walk_renameFrom cases h]
  | .loop pre c post body, _, _, h => by
      -- What `pre` declares is bound in the rest of the loop, in both kinds of scopes.
      have hafter := h.push.bindAll (Block.declared pre)
      simp only [Stmt.rename, Stmt.walk, Block.renameFrom_snd, Block.walk_snd,
        Block.declared_renameFrom, Scopes.pop_bindAll_push, List.map_append]
      rw [Block.walk_renameFrom pre h.push, Expr.reads_rename hafter,
        Block.walk_renameFrom post hafter.push, Block.walk_renameFrom body hafter.push]
  | .break, _, _, _ => rfl
  | .continue, _, _, _ => rfl
  | .leave, _, _, _ => rfl
  | .block body, _, _, h => Block.walk_renameFrom body h.push

theorem Block.walk_renameFrom : (b : List Stmt) → {inner scopes : Scopes} →
    ρ.Follows base inner scopes →
    (Block.walk (Block.renameFrom ρ b inner).1 scopes).1 =
      (Block.walk b scopes).1.map (ρ.occurrence base)
  | [], _, _, _ => rfl
  | s :: rest, _, _, h => by
      simp only [Block.renameFrom, Block.walk, Stmt.rename_snd, Stmt.walk_snd,
        Stmt.declared_rename, List.map_append]
      rw [Stmt.walk_rename s h, Block.walk_renameFrom rest (h.bindAll _)]

theorem Case.walk_renameFrom : (cases : List Case) → {inner scopes : Scopes} →
    ρ.Follows base inner scopes →
    (Case.walk (Case.renameFrom ρ cases inner).1 scopes).1 =
      (Case.walk cases scopes).1.map (ρ.occurrence base)
  | [], _, _, _ => rfl
  | ⟨_, body⟩ :: rest, _, _, h => by
      simp only [Case.renameFrom, Case.walk, Block.renameFrom_snd, Block.walk_snd,
        Scopes.pop_bindAll_push, List.map_append]
      rw [Block.walk_renameFrom body h.push, Case.walk_renameFrom rest h]

end

end Walk

/-- The occurrences in renamed statements, where the renaming went on below a base. -/
theorem Block.occurrences_renameFrom (ρ : Renaming) (b : Block) (base : Scopes) :
    Block.occurrences (Block.renameFrom ρ b base).1 = b.occurrences.map (ρ.occurrence base) :=
  Block.walk_renameFrom b (ρ.follows_initial base)

/-- A renaming gives the free occurrences of a block their new names and leaves everything else as
it is: the other occurrences, what they do with their variables, and all that the block has but the
names of occurrences.  A block in which no name with a new name is free is not changed at all. -/
theorem Renaming.stmts_renames_free (ρ : Renaming) (b : Block) :
    (ρ.stmts b).occurrences.map (fun o => (o.name, o.access)) =
        b.occurrences.map (fun o =>
          (if o.isFree then (ρ.target? o.name).getD o.name else o.name, o.access)) ∧
      Block.blanked (ρ.stmts b) = Block.blanked b ∧
      ((∀ entry ∈ ρ, entry.1 ∉ b.freeNames) → ρ.stmts b = b) := by
  have hblanked : Block.blanked (ρ.stmts b) = Block.blanked b := Block.blanked_renameFrom ρ b _
  have hoccurrences : (ρ.stmts b).occurrences = b.occurrences.map (ρ.occurrence .initial) :=
    Block.occurrences_renameFrom ρ b .initial
  refine ⟨?_, hblanked, fun hfree => Block.eq_of_blanked_eq hblanked ?_⟩
  · rw [hoccurrences, List.map_map]
    simp [Function.comp_def, Renaming.occurrence, Renaming.name_initial]
  · rw [hoccurrences, List.map_map]
    refine List.map_congr_left fun o ho => ?_
    rw [Function.comp_apply]
    cases hcase : o.isFree with
    | false => rw [Renaming.occurrence_of_bound hcase]
    | true =>
        have hmem : o.name ∈ b.freeNames := Block.mem_freeNames.mpr ⟨o, ho, hcase, rfl⟩
        have hnone : ρ.target? o.name = none :=
          Renaming.target?_eq_none fun entry hentry heq => hfree entry hentry (heq ▸ hmem)
        rw [Renaming.occurrence_of_free hcase, Renaming.name_initial, hnone]
        rfl

/-- A block that declares the only name with a new name before it uses it. -/
theorem Renaming.stmts_renames_declared :
    (∀ entry ∈ ([("a", "b")] : Renaming), entry.1 ∉
      Block.freeNames [.declareUntyped ["a"] none, .expr (.call "f" [.variable "a"])]) ∧
    Renaming.stmts [("a", "b")]
        [.declareUntyped ["a"] none, .expr (.call "f" [.variable "a"])] =
      [.declareUntyped ["a"] none, .expr (.call "f" [.variable "a"])] := by
  have hfree : ∀ entry ∈ ([("a", "b")] : Renaming), entry.1 ∉
      Block.freeNames [.declareUntyped ["a"] none, .expr (.call "f" [.variable "a"])] := by
    decide
  exact ⟨hfree, (Renaming.stmts_renames_free _ _).2.2 hfree⟩

end SwitchHoist
