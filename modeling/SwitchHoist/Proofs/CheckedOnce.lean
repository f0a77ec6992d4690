import SwitchHoist.Proofs.StepwiseRenaming

/-!
# One check for all cases

Whether a statement may move in front of a switch is checked for the first case alone.  The
statements at its place in the other cases are equal to it up to declared names.  Such statements
have the same free names, assign the same variables, call the same functions and declare equally
many names.  So the check holds for them as well, as soon as they declare the names of the first.
-/

namespace SwitchHoist

theorem Occurrence.map_name_filter {os os' : List Occurrence} {p : Occurrence → Bool}
    (h : List.Forall₂ (Occurrence.Matches Eq) os os')
    (hp : ∀ {o o'}, o.Matches Eq o' → p o = p o')
    (hfree : ∀ {o}, p o = true → o.isFree = true) :
    (os.filter p).map Occurrence.name = (os'.filter p).map Occurrence.name := by
  induction h with
  | nil => rfl
  | @cons o o' _ _ hoo' _ ih =>
      have hsame := hp hoo'
      rw [List.filter_cons, List.filter_cons, ← hsame]
      split
      · next ho => rw [List.map_cons, List.map_cons, ih, hoo'.name (hfree ho)]
      · exact ih

theorem Block.Matches.freeNames_eq {b c : Block} (h : Block.Matches Eq b c) :
    b.freeNames = c.freeNames :=
  Occurrence.map_name_filter (h.forall₂_walk (Matching.inside_initial Eq))
    (fun hoo' => hoo'.isFree) id

theorem Stmt.Matches.written_eq {s t : Stmt} (h : s.Matches Eq t) : s.written = t.written := by
  have hwalk := (Block.Matches.cons h .nil).forall₂_walk (Matching.inside_initial Eq)
  refine Occurrence.map_name_filter hwalk (fun hoo' => ?_) fun ho => ?_
  · rw [hoo'.access, hoo'.isFree]
  · exact (Bool.and_eq_true_iff.mp ho).2

/-! ## Statements that declare the same names -/

/-- Variables with the same types and other names. -/
def TypedName.renamed (vars : List TypedName) (names : List String) : List TypedName :=
  (vars.zip names).map fun p => ⟨p.2, p.1.typ⟩

/-- The statement with other names for the variables that it declares in its scope. -/
def Stmt.redeclare (names : List String) : Stmt → Stmt
  | .declare vars value => .declare (TypedName.renamed vars names) value
  | s => s

section Renamed

variable {vars : List TypedName} {names : List String}

theorem TypedName.types_renamed (h : vars.length ≤ names.length) :
    TypedName.types (TypedName.renamed vars names) = TypedName.types vars := by
  calc TypedName.types (TypedName.renamed vars names)
    _ = ((vars.zip names).map Prod.fst).map TypedName.typ := by
      rw [TypedName.types, TypedName.renamed, List.map_map, List.map_map]
      rfl
    _ = TypedName.types vars := by rw [List.map_fst_zip h, TypedName.types]

theorem TypedName.names_renamed (h : names.length ≤ vars.length) :
    TypedName.names (TypedName.renamed vars names) = names := by
  calc TypedName.names (TypedName.renamed vars names)
    _ = (vars.zip names).map Prod.snd := by
      rw [TypedName.names, TypedName.renamed, List.map_map]
      rfl
    _ = names := List.map_snd_zip h

end Renamed

/-- A statement goes on to match when it takes over the declared names of its partner. -/
theorem Stmt.Matches.redeclare {M : Matching} {s t : Stmt} (h : s.Matches M t) :
    s.Matches M (t.redeclare s.declared) ∧ (t.redeclare s.declared).declared = s.declared := by
  have hlen := h.length_declared
  cases t with
  | declare vars' value' =>
      cases h with
      | @declare _ vars _ value _ hvalue htypes =>
          have hlen : (TypedName.names vars).length = vars'.length := by
            rw [TypedName.length_names htypes, TypedName.names, List.length_map]
          refine ⟨.declare hvalue ?_, TypedName.names_renamed (Nat.le_of_eq hlen)⟩
          rw [Stmt.declared, TypedName.types_renamed (Nat.le_of_eq hlen.symm), htypes]
  | _ => exact ⟨h, (List.eq_nil_of_length_eq_zero hlen).symm⟩

/-- What is pinned allows both of two statements that are equal and declare the same names, or
none. -/
theorem Stmt.Matches.allows_redeclare {s t : Stmt} (h : s.Matches Eq t) (pinned : Pinned) :
    pinned.allows (t.redeclare s.declared) = pinned.allows s := by
  obtain ⟨hredeclared, hdeclared⟩ := h.redeclare
  rw [Pinned.allows, Pinned.allows, hdeclared, ← hredeclared.defined?_eq,
    ← hredeclared.written_eq, ← hredeclared.called_eq]

/-- All that is checked of a statement before it moves holds of an equal one as well. -/
theorem Stmt.Matches.may_redeclare {s t : Stmt} (h : s.Matches Eq t) {ctx : PrefixContext}
    {taken : Names} (hs : ctx.May taken s) : ctx.May taken (t.redeclare s.declared) where
  allowed := (h.allows_redeclare ctx.pinned).trans hs.allowed
  notLive := by
    rw [h.redeclare.2]
    exact hs.notLive
  notTaken := by
    rw [h.redeclare.2]
    exact hs.notTaken

/-- Statements that are equal up to declared names have the same names free, assign the same
variables, call the same functions, and are declarations of equally many names or no declarations.
So what is pinned allows one of them to move exactly if it allows the other, once this takes over
the declared names of the first; and where the pass takes a statement of the first case, all that
it has checked holds of the statements of the other cases as well. -/
theorem Stmt.alphaEq_checks :
    (∀ s t : Stmt, s.alphaEq t = true →
      Block.freeNames [s] = Block.freeNames [t] ∧ s.written = t.written ∧ s.called = t.called ∧
        ((∃ vars value vars' value', s = .declare vars value ∧ t = .declare vars' value' ∧
            vars.length = vars'.length) ∨
          s.isDeclaration = false ∧ t.isDeclaration = false) ∧
        (t.redeclare s.declared).declared = s.declared ∧
        ∀ pinned : Pinned, pinned.allows (t.redeclare s.declared) = pinned.allows s) ∧
    ∀ (live : Names) (scrutinee : Expr) (first : Case) (others : List Case),
      ∃ hoisted cases',
        hoistPrefix Stmt.alphaEq live scrutinee (first :: others) = .ok (hoisted, cases') ∧
        ∀ c ∈ others, ∀ i (hi : i < hoisted.length), ∃ t,
          (Block.dropAll (hoisted.take i) c.body).head? = some t ∧
            PrefixContext.May ⟨Stmt.alphaEq, .ofSwitch scrutinee (first :: others), live⟩
              (Block.declared (hoisted.take i)) (t.redeclare hoisted[i].declared) := by
  constructor
  · intro s t h
    have hmatches := (Stmt.alphaEq_iff s t).mp h
    refine ⟨(Block.Matches.cons hmatches .nil).freeNames_eq, hmatches.written_eq,
      hmatches.called_eq, ?_, hmatches.redeclare.2, hmatches.allows_redeclare⟩
    cases hmatches with
    | @declare _ vars vars' value value' _ htypes =>
        have hlen := congrArg List.length htypes
        simp only [TypedName.types, List.length_map] at hlen
        exact Or.inl ⟨vars, value, vars', value', rfl, rfl, hlen⟩
    | _ => exact Or.inr ⟨rfl, rfl⟩
  · intro live scrutinee first others
    obtain ⟨hoisted, cases', h⟩ := exists_hoistPrefix Stmt.alphaEq_faithful live scrutinee
      (List.cons_ne_nil first others)
    obtain ⟨_, _, _, followers, heq, -, -, hmay, hruns⟩ := hoistPrefix_eq_ok h
    cases heq
    refine ⟨hoisted, cases', h, fun c hc i hi => ?_⟩
    obtain ⟨g, -, hrun⟩ := exists_mem_left_of_forall₂ hruns.flip hc
    obtain ⟨t, ht, hequal⟩ := hrun.dropAll_ofCase.2 i hi
    exact ⟨t, ht, ((Stmt.alphaEq_iff hoisted[i] t).mp hequal).may_redeclare (hmay.getElem hi)⟩

/-- A loop that declares one name, and a function in it that takes another. -/
def summingLoop (i k : String) : Stmt :=
  .loop [.declareUntyped [i] (some (.variable "n"))] (.call "more" [.variable i])
    [.assign [i, "last"] (.call "next" [.variable i])]
    [.define "add" [.untyped k] [] [.assign ["total", k] (.variable i)],
      .expr (.call "add" [.variable i])]

/-- A default case that declares `x` and sums up. -/
def summingDefault : Case :=
  ⟨none, [.declareUntyped ["x"] (some (.call "f" [])), summingLoop "k" "i",
    .expr (.call "h" [.variable "x"])]⟩

/-- A case that declares another name and sums up as well. -/
def summingFirst : Case :=
  ⟨some ⟨.number, "0", none⟩, [.declareUntyped ["a"] (some (.call "f" [])), summingLoop "i" "k",
    .expr (.call "g" [.variable "a"])]⟩

/-- The default case declares the variable of the scrutinee, and two statements are taken. -/
theorem summingLoop_alphaEq_checks :
    ((summingLoop "i" "k").alphaEq (summingLoop "k" "i") = true ∧
      Block.freeNames [summingLoop "i" "k"] = Block.freeNames [summingLoop "k" "i"] ∧
      (summingLoop "i" "k").written = (summingLoop "k" "i").written ∧
      (summingLoop "i" "k").called = (summingLoop "k" "i").called ∧
      ∀ pinned : Pinned,
        pinned.allows (summingLoop "k" "i") = pinned.allows (summingLoop "i" "k")) ∧
    ∃ hoisted cases',
      hoistPrefix Stmt.alphaEq [] (.variable "x") [summingFirst, summingDefault] =
        .ok (hoisted, cases') ∧
      hoisted.length = 2 ∧
      ∀ i (hi : i < hoisted.length), ∃ t,
        (Block.dropAll (hoisted.take i) summingDefault.body).head? = some t ∧
          PrefixContext.May
            ⟨Stmt.alphaEq, .ofSwitch (.variable "x") [summingFirst, summingDefault], []⟩
            (Block.declared (hoisted.take i)) (t.redeclare hoisted[i].declared) := by
  obtain ⟨hpairs, hprefix⟩ := Stmt.alphaEq_checks
  have hequal : (summingLoop "i" "k").alphaEq (summingLoop "k" "i") = true := by decide
  obtain ⟨hfree, hwritten, hcalled, -, -, hallows⟩ := hpairs _ _ hequal
  refine ⟨⟨hequal, hfree, hwritten, hcalled, hallows⟩, ?_⟩
  obtain ⟨hoisted, cases', h, hothers⟩ :=
    hprefix [] (.variable "x") summingFirst [summingDefault]
  have hlength : (hoistPrefix Stmt.alphaEq [] (.variable "x")
      [summingFirst, summingDefault]).toOption.map (fun r => r.1.length) = some 2 := by decide
  rw [h] at hlength
  exact ⟨hoisted, cases', h, Option.some.inj hlength,
    hothers summingDefault (List.mem_singleton_self _)⟩

/-- Of two equal declarations, one may declare a variable of the scrutinee and the other not. -/
example :
    (Stmt.declareUntyped ["a"] none).alphaEq (.declareUntyped ["b"] none) = true ∧
      Pinned.allows ⟨["b"], []⟩ (.declareUntyped ["a"] none) = true ∧
      Pinned.allows ⟨["b"], []⟩ (.declareUntyped ["b"] none) = false := by
  decide

end SwitchHoist
