import SwitchHoist.Proofs.Grammar

/-!
# The derivations of programs

The derivation of a program is read off its tree, one node of the tree at a time.  It follows
the rules of the grammar just if the tree can be printed, and then the tokens of the tree are at
its leaves.
-/

namespace SwitchHoist

open Grammar

/-! ## From a tree to its derivation -/

/-- The derivation of a type annotation. -/
def typeDerivation : Option String → Derivation
  | none => .absent
  | some typ => .present (.mark .colon ++ .name typ)

/-- The derivation of a name with an optional type. -/
def TypedName.derivation (v : TypedName) : Derivation :=
  .name v.name ++ typeDerivation v.typ

/-- The derivation of a list of typed names. -/
def TypedName.listDerivation (ds : List Derivation) : Derivation :=
  .rule .typedNames (.listOf ds)

/-- The alternative of the rule for literals that is taken. -/
def Literal.alternative (l : Literal) : Nat :=
  match l.kind with
  | .number => 0
  | .string => 1
  | .boolean => if l.value = "true" then 2 else 3

/-- The derivation of a literal. -/
def Literal.derivation (l : Literal) : Derivation :=
  .rule .literal (.choice l.alternative (.token l.lexeme) ++ typeDerivation l.typ)

/-- The derivation of a call with these arguments. -/
def callDerivation (f : String) (args : List Derivation) : Derivation :=
  .name f ++ .mark .openParen ++ .optionalList (fun ds => .rule .args (.listOf ds)) args
    ++ .mark .closeParen

/-- The alternative of the rule for expressions that is taken. -/
def Expr.alternative : Expr → Nat
  | .literal _ => 0
  | .variable _ => 1
  | .call .. => 2

mutual

/-- The derivation of an expression, without the choice that makes it an expression. -/
def Expr.inner : Expr → Derivation
  | .literal l => l.derivation
  | .variable x => .name x
  | .call f args => callDerivation f (Expr.derivations args)

/-- The derivation of each expression of a list. -/
def Expr.derivations : List Expr → List Derivation
  | [] => []
  | e :: rest => .rule .expression (.choice e.alternative e.inner) :: Expr.derivations rest

end

/-- The derivation of an expression. -/
def Expr.derivation (e : Expr) : Derivation :=
  .rule .expression (.choice e.alternative e.inner)

theorem Expr.derivations_eq_map (es : List Expr) :
    Expr.derivations es = es.map Expr.derivation := by
  induction es with
  | nil => rfl
  | cons e rest ih => rw [Expr.derivations, ih, List.map_cons, Expr.derivation]

/-- The derivation of the value of a declaration. -/
def initializerDerivation : Option Expr → Derivation
  | none => .absent
  | some e => .present (.mark .gets ++ e.derivation)

/-- The derivation of the returns of a function. -/
def returnsDerivation (returns : List Derivation) : Derivation :=
  .optionalList (fun ds => .mark .arrow ++ TypedName.listDerivation ds) returns

/-- The derivation of a block with these statements. -/
def bracedDerivation (ds : List Derivation) : Derivation :=
  .rule .block (.mark .openBrace ++ .repeated ds ++ .mark .closeBrace)

mutual

/-- The derivation of a statement. -/
def Stmt.derivation : Stmt → Derivation
  | .block body => .rule .statement (.choice 0 (bracedDerivation (Block.derivations body)))
  | .declare vars value => .rule .statement (.choice 1
      (.keyword .letK ++ TypedName.listDerivation (vars.map TypedName.derivation)
        ++ initializerDerivation value))
  | .define f params returns body => .rule .statement (.choice 2
      (.keyword .functionK ++ .name f ++ .mark .openParen
        ++ .optionalList TypedName.listDerivation (params.map TypedName.derivation)
        ++ .mark .closeParen
        ++ returnsDerivation (returns.map TypedName.derivation)
        ++ bracedDerivation (Block.derivations body)))
  | .branch condition body => .rule .statement (.choice 3
      (.keyword .ifK ++ condition.derivation ++ bracedDerivation (Block.derivations body)))
  | .switch scrutinee cases => .rule .statement (.choice 4
      (.keyword .switchK ++ scrutinee.derivation
        ++ .nonempty (.repeated (Case.valued cases) ++ Case.default cases)))
  | .loop pre condition post body => .rule .statement (.choice 5
      (.keyword .forK ++ bracedDerivation (Block.derivations pre) ++ condition.derivation
        ++ bracedDerivation (Block.derivations post)
        ++ bracedDerivation (Block.derivations body)))
  | .break => .rule .statement (.choice 6 (.keyword .breakK))
  | .continue => .rule .statement (.choice 7 (.keyword .continueK))
  | .leave => .rule .statement (.choice 8 (.keyword .leaveK))
  | .assign targets value => .rule .statement (.choice 9
      (.listOf (targets.map .name) ++ .mark .gets ++ value.derivation))
  | .expr e => .rule .statement (.choice 10 e.inner)

/-- The derivation of each statement of a block. -/
def Block.derivations : List Stmt → List Derivation
  | [] => []
  | s :: rest => s.derivation :: Block.derivations rest

/-- The derivations of the cases in front of the default case. -/
def Case.valued : List Case → List Derivation
  | [] => []
  | ⟨some l, body⟩ :: rest =>
      (.keyword .caseK ++ l.derivation ++ bracedDerivation (Block.derivations body))
        :: Case.valued rest
  | ⟨none, _⟩ :: _ => []

/-- The derivation of the default case, which only the last case can be. -/
def Case.default : List Case → Derivation
  | [] => .absent
  | ⟨some _, _⟩ :: rest => Case.default rest
  | [⟨none, body⟩] =>
      .present (.keyword .defaultK ++ bracedDerivation (Block.derivations body))
  | ⟨none, _⟩ :: _ :: _ => .stop

end

/-- The derivation of a program. -/
def Block.derivation (b : Block) : Derivation :=
  bracedDerivation (Block.derivations b)

theorem Block.derivations_eq_map (b : Block) : Block.derivations b = b.map Stmt.derivation := by
  induction b with
  | nil => rfl
  | cons s rest ih => rw [Block.derivations, ih, List.map_cons]

/-! ## The tokens of a derivation -/

namespace Grammar.Derivation

@[simp] theorem lexemes_listOf (ds : List Derivation) :
    (listOf ds).lexemes = commaLexemes (ds.map lexemes) := by
  induction ds with
  | nil => rfl
  | cons d rest ih =>
      cases rest with
      | nil => simp [listOf, repeated, commaLexemes]
      | cons e rest =>
          rw [List.map_cons, commaLexemes_cons _ (by simp), ← ih]
          simp [listOf, behindComma, List.flatMap_cons]

theorem lexemes_optionalList (f : List Derivation → Derivation) (ds : List Derivation) :
    (optionalList f ds).lexemes = if ds = [] then [] else (f ds).lexemes := by
  cases ds <;> simp [optionalList]

end Grammar.Derivation

open Grammar.Derivation (lexemes_append)

@[simp] theorem lexemes_typeDerivation (typ : Option String) :
    (typeDerivation typ).lexemes = typeLexemes typ := by
  cases typ <;> rfl

@[simp] theorem TypedName.lexemes_derivation (v : TypedName) :
    v.derivation.lexemes = v.lexemes := by
  rw [derivation, lexemes_append, lexemes_typeDerivation]
  rfl

@[simp] theorem TypedName.lexemes_listDerivation (vs : List TypedName) :
    (listDerivation (vs.map derivation)).lexemes = listLexemes vs := by
  simp [listDerivation, listLexemes, Function.comp_def]

@[simp] theorem Literal.lexemes_derivation (l : Literal) : l.derivation.lexemes = l.lexemes := by
  rw [derivation, Derivation.lexemes, lexemes_append, lexemes_typeDerivation]
  rfl

mutual

theorem Expr.lexemes_inner : (e : Expr) → e.inner.lexemes = e.lexemes
  | .literal l => l.lexemes_derivation
  | .variable _ => rfl
  | .call f args => by
      have hargs := Expr.lexemes_derivations args
      rw [Expr.inner, callDerivation, Derivation.lexemes_append, Derivation.lexemes_append,
        Derivation.lexemes_append, Derivation.lexemes_optionalList, Expr.lexemes, ← hargs]
      cases args with
      | nil => rfl
      | cons e rest =>
          rw [if_neg (by simp [Expr.derivations]), Derivation.lexemes, Derivation.lexemes_listOf]
          rfl

theorem Expr.lexemes_derivations : (es : List Expr) →
    (Expr.derivations es).map Derivation.lexemes = Expr.lexemesOfList es
  | [] => rfl
  | e :: rest => by
      rw [Expr.derivations, List.map_cons, Expr.lexemes_derivations rest, Derivation.lexemes,
        Derivation.lexemes, Expr.lexemes_inner e, Expr.lexemesOfList]

end

@[simp] theorem Expr.lexemes_derivation (e : Expr) : e.derivation.lexemes = e.lexemes :=
  e.lexemes_inner

@[simp] theorem lexemes_initializerDerivation (value : Option Expr) :
    (initializerDerivation value).lexemes = initializerLexemes value := by
  cases value with
  | none => rfl
  | some e =>
      simp [initializerDerivation, initializerLexemes]

@[simp] theorem lexemes_bracedDerivation (ds : List Derivation) :
    (bracedDerivation ds).lexemes = bracedLexemes (ds.flatMap Derivation.lexemes) := by
  simp [bracedDerivation, bracedLexemes]

@[simp] theorem TypedName.lexemes_optional (vs : List TypedName) :
    (Derivation.optionalList listDerivation (vs.map derivation)).lexemes = listLexemes vs := by
  rw [Derivation.lexemes_optionalList, lexemes_listDerivation]
  cases vs <;> rfl

@[simp] theorem lexemes_returnsDerivation (vs : List TypedName) :
    (returnsDerivation (vs.map TypedName.derivation)).lexemes = returnsLexemes vs := by
  rw [returnsDerivation, Derivation.lexemes_optionalList, lexemes_append,
    TypedName.lexemes_listDerivation]
  cases vs <;> rfl

section

attribute [local simp] Stmt.derivation Stmt.lexemes

mutual

theorem Stmt.lexemes_derivation : (s : Stmt) → s.Each Stmt.Formed →
    s.derivation.lexemes = s.lexemes
  | .expr e, _ => e.lexemes_inner
  | .assign targets value, _ => by
      simp [namesLexemes, Function.comp_def]
  | .declare vars value, _ => by
      simp
  | .define f params returns body, h => by
      simp [Block.lexemes_derivations body (Stmt.each_define.mp h).2]
  | .branch condition body, h => by
      simp [Block.lexemes_derivations body (Stmt.each_branch.mp h).2]
  | .switch scrutinee cases, h => by
      simp [← Case.lexemes_derivations cases h.head.2.2 (Stmt.each_switch.mp h).2]
  | .loop pre condition post body, h => by
      obtain ⟨-, hpre, hpost, hbody⟩ := Stmt.each_loop.mp h
      simp [Block.lexemes_derivations pre hpre, Block.lexemes_derivations post hpost,
        Block.lexemes_derivations body hbody]
  | .break, _ => rfl
  | .continue, _ => rfl
  | .leave, _ => rfl
  | .block body, h => by
      simp [Block.lexemes_derivations body (Stmt.each_block.mp h).2]

theorem Block.lexemes_derivations : (b : List Stmt) → Block.Each Stmt.Formed b →
    (Block.derivations b).flatMap Derivation.lexemes = Block.innerLexemes b
  | [], _ => rfl
  | s :: rest, h => by
      rw [Block.each_cons] at h
      rw [Block.derivations, List.flatMap_cons, Stmt.lexemes_derivation s h.1,
        Block.lexemes_derivations rest h.2, Block.innerLexemes]

theorem Case.lexemes_derivations : (cases : List Case) →
    (∀ c ∈ cases.dropLast, c.value.isSome = true) → Case.Each Stmt.Formed cases →
    (Derivation.repeated (Case.valued cases) ++ Case.default cases).lexemes = Case.lexemes cases
  | [], _, _ => rfl
  | ⟨some l, body⟩ :: rest, hlast, h => by
      rw [Case.each_cons] at h
      have hrest := Case.lexemes_derivations rest
        (fun c hc => hlast c (by cases rest <;> simp_all)) h.2
      rw [Case.valued, Case.default, Case.lexemes, ← hrest]
      simp [caseHeadLexemes, Block.lexemes_derivations body h.1]
  | [⟨none, body⟩], _, h => by
      rw [Case.each_cons] at h
      simp [Case.valued, Case.default, Case.lexemes, caseHeadLexemes,
        Block.lexemes_derivations body h.1]
  | ⟨none, _⟩ :: _ :: _, hlast, _ => nomatch hlast _ (List.mem_cons_self ..)

end

end

/-- The derivation of a program with the shape that the grammar asks for has the tokens of the
program at its leaves. -/
theorem Block.lexemes_derivation {b : Block} (h : Block.Each Stmt.Formed b) :
    b.derivation.lexemes = b.lexemes := by
  rw [derivation, lexemes_bracedDerivation, lexemes_derivations b h, lexemes]

/-! ## Trees that can be printed have derivations -/

namespace Grammar.Derivation

/-- A list that may be missing is derived if it is missing or if the items are. -/
theorem optionalList_follows {f : List Derivation → Derivation} {ds : List Derivation}
    {p : Phrase} : (optionalList f ds).Follows (.optional p) ↔ (ds ≠ [] → (f ds).Follows p) := by
  cases ds <;> simp [optionalList]

end Grammar.Derivation

@[simp] theorem typeDerivation_follows {typ : Option String} :
    (typeDerivation typ).Follows .typ ↔ ∀ x ∈ typ, IsName x := by
  cases typ <;> simp [typeDerivation, Phrase.typ]

@[simp] theorem TypedName.derivation_follows {v : TypedName} :
    v.derivation.Follows (.identifier ++ .typ) ↔ v.Printable := by
  simp [derivation, Printable]

@[simp] theorem TypedName.listDerivation_follows {vs : List TypedName} :
    (listDerivation (vs.map derivation)).Follows (.rule .typedNames) ↔
      vs ≠ [] ∧ ∀ v ∈ vs, v.Printable := by
  simp [listDerivation, Nonterminal.phrase]

@[simp] theorem Literal.derivation_follows {l : Literal} :
    l.derivation.Follows (.rule .literal) ↔ l.Printable := by
  have hkind : (Derivation.choice l.alternative (.token l.lexeme)).Follows
      (.oneOf [.token .number, .token .string, .keyword .trueK, .keyword .falseK]) ↔
        l.lexeme.IsToken := by
    obtain ⟨_ | _ | _, value, typ⟩ := l
    · simp [alternative, lexeme]
    · by_cases h : value = "true" <;> simp [alternative, lexeme, h, Phrase.keyword]
    · simp [alternative, lexeme]
  rw [derivation, Derivation.rule_follows, Nonterminal.phrase, Derivation.append_follows, hkind,
    typeDerivation_follows, ← isSpelled_iff, Printable]
  simp

theorem callDerivation_follows {f : String} {args : List Derivation} :
    (callDerivation f args).Follows .call ↔
      IsName f ∧ ∀ d ∈ args, d.Follows (.rule .expression) := by
  have hargs : (args ≠ [] → args ≠ [] ∧ ∀ d ∈ args, d.Follows (.rule .expression)) ↔
      ∀ d ∈ args, d.Follows (.rule .expression) := by
    cases args <;> simp
  simp only [callDerivation, Phrase.call, Derivation.append_follows, Derivation.name_follows,
    Derivation.mark_follows, Derivation.optionalList_follows, Derivation.rule_follows,
    Nonterminal.phrase, Derivation.listOf_follows, hargs, and_true, true_and]

mutual

theorem Expr.derivation_follows : (e : Expr) →
    (e.derivation.Follows (.rule .expression) ↔ e.Printable)
  | .literal l => by
      simp [derivation, alternative, inner, Nonterminal.phrase]
  | .variable x => by
      simp [derivation, alternative, inner, Nonterminal.phrase]
  | .call f args => by
      simp [derivation, alternative, inner, Nonterminal.phrase, callDerivation_follows,
        Expr.derivations_follow args]

theorem Expr.derivations_follow : (es : List Expr) →
    ((∀ d ∈ Expr.derivations es, d.Follows (.rule .expression)) ↔ ∀ e ∈ es, e.Printable)
  | [] => by
      simp [derivations]
  | e :: rest => by
      rw [derivations, List.forall_mem_cons, List.forall_mem_cons, Expr.derivations_follow rest,
        ← Expr.derivation_follows e, derivation]

end

/-- An expression stands as a statement if it is a call. -/
theorem Expr.inner_follows_call {e : Expr} :
    e.inner.Follows .call ↔ e.Printable ∧ e.isCall = true := by
  cases e with
  | literal l => exact iff_of_false (by rw [inner]; rintro ⟨⟩) (by simp [isCall])
  | «variable» x => exact iff_of_false (by rw [inner]; rintro ⟨⟩) (by simp [isCall])
  | call f args => simp [inner, callDerivation_follows, Expr.derivations_follow, isCall]

@[simp] theorem initializerDerivation_follows {value : Option Expr} :
    (initializerDerivation value).Follows (.optional (.mark .gets ++ .rule .expression)) ↔
      ∀ e ∈ value, e.Printable := by
  cases value <;> simp [initializerDerivation, Expr.derivation_follows]

@[simp] theorem bracedDerivation_follows {ds : List Derivation} :
    (bracedDerivation ds).Follows (.rule .block) ↔ ∀ d ∈ ds, d.Follows (.rule .statement) := by
  simp [bracedDerivation, Nonterminal.phrase]

@[simp] theorem TypedName.optional_follows {vs : List TypedName} :
    (Derivation.optionalList listDerivation (vs.map derivation)).Follows
      (.optional (.rule .typedNames)) ↔ ∀ v ∈ vs, v.Printable := by
  rw [Derivation.optionalList_follows, listDerivation_follows]
  cases vs <;> simp

@[simp] theorem returnsDerivation_follows {vs : List TypedName} :
    (returnsDerivation (vs.map TypedName.derivation)).Follows
      (.optional (.mark .arrow ++ .rule .typedNames)) ↔ ∀ v ∈ vs, v.Printable := by
  rw [returnsDerivation, Derivation.optionalList_follows, Derivation.append_follows,
    TypedName.listDerivation_follows]
  cases vs <;> simp

/-- Behind a default case there is no other case. -/
theorem Case.not_default_follows {body : Block} {c : Case} {rest : List Case} {p : Phrase} :
    ¬(Case.default (⟨none, body⟩ :: c :: rest)).Follows (.optional p) := by
  rw [Case.default]
  rintro ⟨⟩

/-- A switch whose cases are derived has a case if its cases have a token. -/
theorem Case.lexemes_eq_nil {cases : List Case}
    (h : (Derivation.repeated (Case.valued cases) ++ Case.default cases).Follows .cases) :
    (Derivation.repeated (Case.valued cases) ++ Case.default cases).lexemes = [] ↔ cases = [] := by
  match cases with
  | [] => simp [Case.valued, Case.default]
  | ⟨some l, body⟩ :: rest => simp [Case.valued]
  | [⟨none, body⟩] => simp [Case.default]
  | ⟨none, _⟩ :: _ :: _ => exact absurd (Derivation.append_follows.mp h).2 Case.not_default_follows

section

attribute [local simp] Stmt.derivation Nonterminal.phrase Expr.derivation_follows

mutual

/-- A statement has a derivation if it can be printed. -/
theorem Stmt.derivation_follows : (s : Stmt) →
    (s.derivation.Follows (.rule .statement) ↔ s.Each Stmt.Printable)
  | .expr e => by
      simp [Expr.inner_follows_call, Stmt.each_iff, Stmt.blocks]
  | .assign targets value => by
      simp [Stmt.each_iff, Stmt.blocks, and_assoc]
  | .declare vars value => by
      simp [Stmt.each_iff, Stmt.blocks, and_assoc]
  | .define f params returns body => by
      simp [Block.derivations_follow body, and_assoc]
  | .branch condition body => by
      simp [Block.derivations_follow body]
  | .switch scrutinee cases => by
      have hcases : (Derivation.nonempty (.repeated (Case.valued cases)
          ++ Case.default cases)).Follows (.nonempty .cases) ↔ cases ≠ [] ∧
            (∀ c ∈ cases, ∀ l ∈ c.value, l.Printable) ∧
              (∀ c ∈ cases.dropLast, c.value.isSome = true) ∧ Case.Each Stmt.Printable cases := by
        rw [Derivation.nonempty_follows, ← Case.derivations_follow cases, and_comm]
        exact and_congr_left fun h => not_congr (Case.lexemes_eq_nil h)
      simp [-Derivation.nonempty_follows, hcases, and_assoc, and_left_comm]
  | .loop pre condition post body => by
      simp [Block.derivations_follow pre, Block.derivations_follow post,
        Block.derivations_follow body, and_assoc, and_left_comm]
  | .break => by
      simp [Stmt.each_iff, Stmt.blocks]
  | .continue => by
      simp [Stmt.each_iff, Stmt.blocks]
  | .leave => by
      simp [Stmt.each_iff, Stmt.blocks]
  | .block body => by
      simp [Block.derivations_follow body]

theorem Block.derivations_follow : (b : List Stmt) →
    ((∀ d ∈ Block.derivations b, d.Follows (.rule .statement)) ↔ Block.Each Stmt.Printable b)
  | [] => by
      simp [Block.derivations]
  | s :: rest => by
      rw [Block.derivations, List.forall_mem_cons, Stmt.derivation_follows s,
        Block.derivations_follow rest, Block.each_cons]

theorem Case.derivations_follow : (cases : List Case) →
    ((Derivation.repeated (Case.valued cases) ++ Case.default cases).Follows .cases ↔
      (∀ c ∈ cases, ∀ l ∈ c.value, l.Printable) ∧
        (∀ c ∈ cases.dropLast, c.value.isSome = true) ∧ Case.Each Stmt.Printable cases)
  | [] => by
      simp [Case.valued, Case.default, Phrase.cases]
  | ⟨some l, body⟩ :: rest => by
      have hlast : (∀ c ∈ List.dropLast (⟨some l, body⟩ :: rest), c.value.isSome = true) ↔
          ∀ c ∈ rest.dropLast, c.value.isSome = true := by
        cases rest <;> simp
      have hrest := Case.derivations_follow rest
      rw [Phrase.cases, Derivation.append_follows, Derivation.repeated_follows] at hrest ⊢
      rw [Case.valued, Case.default, List.forall_mem_cons, and_assoc, hrest, hlast]
      simp [Block.derivations_follow body, and_assoc, and_left_comm]
  | [⟨none, body⟩] => by
      simp [Case.valued, Case.default, Phrase.cases, Block.derivations_follow body]
  | ⟨none, _⟩ :: _ :: _ =>
      iff_of_false (fun h => Case.not_default_follows (Derivation.append_follows.mp h).2)
        fun h => nomatch h.2.1 _ (List.mem_cons_self ..)

end

end

/-- A program has a derivation if it can be printed. -/
theorem Block.derivation_follows {b : Block} :
    b.derivation.Follows (.rule .block) ↔ b.Printable := by
  rw [derivation, bracedDerivation_follows, Block.derivations_follow b, Printable]

end SwitchHoist
