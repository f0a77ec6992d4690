import SwitchHoist.Program.Printer
import SwitchHoist.Proofs.EveryStatement
import SwitchHoist.Proofs.Tokenizing
import SwitchHoist.Validity.Rules

/-!
# Trees that can be printed

A tree is written as a sequence of tokens.  It can be printed, so that it can be read back, if
its names and literals are tokens and if every statement has the parts that the grammar asks
for.  All of this is said of one statement at a time.
-/

namespace SwitchHoist

/-! ## The tokens of a tree -/

/-- The tokens of a type annotation. -/
def typeLexemes : Option String → List Lexeme
  | none => []
  | some typ => [.mark .colon, .name typ]

/-- The tokens of a name with an optional type. -/
def TypedName.lexemes (v : TypedName) : List Lexeme :=
  [.name v.name] ++ typeLexemes v.typ

/-- Groups of tokens with commas between neighbours. -/
def commaLexemes : List (List Lexeme) → List Lexeme
  | [] => []
  | [ls] => ls
  | ls :: rest => ls ++ [.mark .comma] ++ commaLexemes rest

theorem commaLexemes_cons (ls : List Lexeme) {rest : List (List Lexeme)} (h : rest ≠ []) :
    commaLexemes (ls :: rest) = ls ++ [.mark .comma] ++ commaLexemes rest := by
  cases rest with
  | nil => exact absurd rfl h
  | cons ms rest => rfl

/-- The token of a literal without its type. -/
def Literal.lexeme (l : Literal) : Lexeme :=
  match l.kind with
  | .number => ⟨.number, l.value⟩
  | .boolean => ⟨.keyword (if l.value = "true" then .trueK else .falseK), l.value⟩
  | .string => ⟨.string, "\"" ++ l.value ++ "\""⟩

/-- The tokens of a literal. -/
def Literal.lexemes (l : Literal) : List Lexeme :=
  [l.lexeme] ++ typeLexemes l.typ

mutual

/-- The tokens of an expression. -/
def Expr.lexemes : Expr → List Lexeme
  | .literal l => l.lexemes
  | .variable x => [.name x]
  | .call f args =>
      [.name f] ++ [.mark .openParen] ++ commaLexemes (Expr.lexemesOfList args)
        ++ [.mark .closeParen]

/-- The tokens of each expression of a list. -/
def Expr.lexemesOfList : List Expr → List (List Lexeme)
  | [] => []
  | e :: rest => e.lexemes :: Expr.lexemesOfList rest

end

theorem Expr.lexemesOfList_eq_map (es : List Expr) :
    Expr.lexemesOfList es = es.map Expr.lexemes := by
  induction es with
  | nil => rfl
  | cons e rest ih => rw [Expr.lexemesOfList, ih, List.map_cons]

/-- The tokens of a list of typed names. -/
def TypedName.listLexemes (vs : List TypedName) : List Lexeme :=
  commaLexemes (vs.map TypedName.lexemes)

/-- The tokens of a list of names. -/
def namesLexemes (xs : List String) : List Lexeme :=
  commaLexemes (xs.map fun x => [.name x])

/-- The tokens of the value of a declaration. -/
def initializerLexemes : Option Expr → List Lexeme
  | none => []
  | some e => [.mark .gets] ++ e.lexemes

/-- The tokens of the returns of a function. -/
def returnsLexemes : List TypedName → List Lexeme
  | [] => []
  | rs => [.mark .arrow] ++ TypedName.listLexemes rs

/-- The tokens in front of the block of a case. -/
def caseHeadLexemes : Option Literal → List Lexeme
  | none => [.keyword .defaultK]
  | some l => [.keyword .caseK] ++ l.lexemes

/-- Tokens between braces. -/
def bracedLexemes (ls : List Lexeme) : List Lexeme :=
  [.mark .openBrace] ++ ls ++ [.mark .closeBrace]

mutual

/-- The tokens of a statement. -/
def Stmt.lexemes : Stmt → List Lexeme
  | .expr e => e.lexemes
  | .assign targets value => namesLexemes targets ++ [.mark .gets] ++ value.lexemes
  | .declare vars value =>
      [.keyword .letK] ++ TypedName.listLexemes vars ++ initializerLexemes value
  | .define f params returns body =>
      [.keyword .functionK] ++ [.name f] ++ [.mark .openParen] ++ TypedName.listLexemes params
        ++ [.mark .closeParen] ++ returnsLexemes returns
        ++ bracedLexemes (Block.innerLexemes body)
  | .branch condition body =>
      [.keyword .ifK] ++ condition.lexemes ++ bracedLexemes (Block.innerLexemes body)
  | .switch scrutinee cases =>
      [.keyword .switchK] ++ scrutinee.lexemes ++ Case.lexemes cases
  | .loop pre condition post body =>
      [.keyword .forK] ++ bracedLexemes (Block.innerLexemes pre) ++ condition.lexemes
        ++ bracedLexemes (Block.innerLexemes post) ++ bracedLexemes (Block.innerLexemes body)
  | .break => [.keyword .breakK]
  | .continue => [.keyword .continueK]
  | .leave => [.keyword .leaveK]
  | .block body => bracedLexemes (Block.innerLexemes body)

/-- The tokens of the statements of a block. -/
def Block.innerLexemes : List Stmt → List Lexeme
  | [] => []
  | s :: rest => s.lexemes ++ Block.innerLexemes rest

/-- The tokens of the cases of a switch. -/
def Case.lexemes : List Case → List Lexeme
  | [] => []
  | ⟨value, body⟩ :: rest =>
      caseHeadLexemes value ++ bracedLexemes (Block.innerLexemes body) ++ Case.lexemes rest

end

theorem Block.innerLexemes_eq_flatMap (b : Block) :
    Block.innerLexemes b = b.flatMap Stmt.lexemes := by
  induction b with
  | nil => rfl
  | cons s rest ih => rw [Block.innerLexemes, ih, List.flatMap_cons]

/-- The tokens of a case. -/
def Case.lexemesOne (c : Case) : List Lexeme :=
  caseHeadLexemes c.value ++ bracedLexemes (Block.innerLexemes c.body)

theorem Case.lexemes_eq_flatMap (cases : List Case) :
    Case.lexemes cases = cases.flatMap Case.lexemesOne := by
  induction cases with
  | nil => rfl
  | cons c rest ih =>
      obtain ⟨value, body⟩ := c
      rw [Case.lexemes, ih, List.flatMap_cons, Case.lexemesOne]

/-- The tokens of a program. -/
def Block.lexemes (b : Block) : List Lexeme :=
  bracedLexemes (Block.innerLexemes b)

/-! ## Trees that can be printed -/

/-- A text that is one identifier token. -/
def IsName (x : String) : Prop :=
  lex x = .ok [⟨.identifier, x, 0⟩]

instance (x : String) : Decidable (IsName x) :=
  inferInstanceAs (Decidable (Lexeme.name x).IsToken)

/-- A literal whose value is spelled as its kind has it: a number is one number token, a
boolean is `true` or `false`, and a string is a sequence of complete string elements. -/
def Literal.IsSpelled (l : Literal) : Prop :=
  match l.kind with
  | .number => lex l.value = .ok [⟨.number, l.value, 0⟩]
  | .boolean => l.value = "true" ∨ l.value = "false"
  | .string => (stringElements l.value.toList).2 = []

instance : (l : Literal) → Decidable l.IsSpelled
  | ⟨.number, value, _⟩ =>
      inferInstanceAs (Decidable (⟨.number, value⟩ : Lexeme).IsToken)
  | ⟨.boolean, value, _⟩ => inferInstanceAs (Decidable (value = "true" ∨ value = "false"))
  | ⟨.string, value, _⟩ => inferInstanceAs (Decidable ((stringElements value.toList).2 = []))

mutual

/-- The literals in an expression. -/
def Expr.literals : Expr → List Literal
  | .literal l => [l]
  | .variable _ => []
  | .call _ args => Expr.literalsOfList args

/-- The literals in a list of expressions. -/
def Expr.literalsOfList : List Expr → List Literal
  | [] => []
  | e :: rest => e.literals ++ Expr.literalsOfList rest

end

/-- Whether an expression is a call. -/
def Expr.isCall : Expr → Bool
  | .call .. => true
  | .literal _ | .variable _ => false

/-- The typed names that a statement introduces. -/
def Stmt.typedNames : Stmt → List TypedName
  | .declare vars _ => vars
  | .define _ params returns _ => params ++ returns
  | _ => []

/-- The values of the cases of a switch. -/
def Stmt.caseValues : Stmt → List Literal
  | .switch _ cases => cases.filterMap Case.value
  | _ => []

/-- The literals at the level of a statement, outside its blocks. -/
def Stmt.literals (s : Stmt) : List Literal :=
  (s.expression?.map Expr.literals).getD [] ++ s.caseValues

/-- The types at the level of a statement: those of its names and those of its literals. -/
def Stmt.types (s : Stmt) : List String :=
  s.typedNames.filterMap TypedName.typ ++ s.literals.filterMap Literal.typ

/-- A declaration and an assignment have a name, and an expression that stands as a statement
is a call. -/
def Stmt.IsComplete : Stmt → Prop
  | .declare vars _ => vars ≠ []
  | .assign targets _ => targets ≠ []
  | .expr e => e.isCall = true
  | _ => True

/-- A switch has a case, and at most the last one is a default case. -/
def Stmt.DefaultLast : Stmt → Prop
  | .switch _ cases => cases ≠ [] ∧ ∀ c ∈ cases.dropLast, c.value.isSome = true
  | _ => True

/-- A statement that has the shape that the grammar asks for. -/
def Stmt.Formed (s : Stmt) : Prop :=
  s.IsComplete ∧ s.DefaultLast

instance : (s : Stmt) → Decidable s.IsComplete
  | .declare vars _ => inferInstanceAs (Decidable (vars ≠ []))
  | .assign targets _ => inferInstanceAs (Decidable (targets ≠ []))
  | .expr e => inferInstanceAs (Decidable (e.isCall = true))
  | .define .. | .branch .. | .switch .. | .loop .. | .break | .continue | .leave | .block _ =>
      .isTrue trivial

instance : (s : Stmt) → Decidable s.DefaultLast
  | .switch _ cases =>
      inferInstanceAs (Decidable (cases ≠ [] ∧ ∀ c ∈ cases.dropLast, c.value.isSome = true))
  | .expr _ | .assign .. | .declare .. | .define .. | .branch .. | .loop .. | .break | .continue
  | .leave | .block _ =>
      .isTrue trivial

/-- What printing needs of a statement and the rules for programs are not about: its types and
its literals are tokens, and it is complete. -/
structure Stmt.Spelled (s : Stmt) : Prop where
  types : ∀ typ ∈ s.types, IsName typ
  literals : ∀ l ∈ s.literals, l.IsSpelled
  complete : s.IsComplete

/-- A statement that can be printed, but for what is inside its blocks. -/
structure Stmt.Printable (s : Stmt) : Prop where
  names : ∀ x ∈ s.identifiers, IsName x
  defaultLast : s.DefaultLast
  spelled : s.Spelled

instance (s : Stmt) : Decidable s.Spelled :=
  decidable_of_iff
    ((∀ typ ∈ s.types, IsName typ) ∧ (∀ l ∈ s.literals, l.IsSpelled) ∧ s.IsComplete)
    ⟨fun h => ⟨h.1, h.2.1, h.2.2⟩, fun h => ⟨h.types, h.literals, h.complete⟩⟩

instance (s : Stmt) : Decidable s.Printable :=
  decidable_of_iff ((∀ x ∈ s.identifiers, IsName x) ∧ s.DefaultLast ∧ s.Spelled)
    ⟨fun h => ⟨h.1, h.2.1, h.2.2⟩, fun h => ⟨h.names, h.defaultLast, h.spelled⟩⟩

/-- A program in which every statement, at any depth, can be printed. -/
def Block.Printable (b : Block) : Prop :=
  Block.Each Stmt.Printable b

instance (b : Block) : Decidable b.Printable :=
  inferInstanceAs (Decidable (∀ t ∈ Block.subtrees b, t.Printable))

theorem Block.Printable.formed {b : Block} (h : b.Printable) : Block.Each Stmt.Formed b :=
  fun s hs => ⟨(h s hs).spelled.complete, (h s hs).defaultLast⟩

/-! ## Expressions and typed names that can be printed -/

/-- A literal whose value and type are tokens. -/
def Literal.Printable (l : Literal) : Prop :=
  l.IsSpelled ∧ ∀ typ ∈ l.typ, IsName typ

/-- A typed name whose name and type are tokens. -/
def TypedName.Printable (v : TypedName) : Prop :=
  IsName v.name ∧ ∀ typ ∈ v.typ, IsName typ

/-- An expression whose names and literals are tokens. -/
def Expr.Printable (e : Expr) : Prop :=
  (∀ x ∈ e.identifiers, IsName x) ∧ ∀ l ∈ e.literals, l.Printable

@[simp] theorem Expr.printable_literal {l : Literal} :
    (Expr.literal l).Printable ↔ l.Printable := by
  simp [Expr.Printable, Expr.identifiers, Expr.literals]

@[simp] theorem Expr.printable_variable {x : String} :
    (Expr.variable x).Printable ↔ IsName x := by
  simp [Expr.Printable, Expr.identifiers, Expr.literals]

@[simp] theorem Expr.printable_call {f : String} {args : List Expr} :
    (Expr.call f args).Printable ↔ IsName f ∧ ∀ e ∈ args, e.Printable := by
  have hargs : (∀ e ∈ args, e.Printable) ↔
      (∀ x ∈ Expr.identifiersOfList args, IsName x) ∧
        ∀ l ∈ Expr.literalsOfList args, l.Printable := by
    induction args with
    | nil => simp [Expr.identifiersOfList, Expr.literalsOfList]
    | cons e rest ih =>
        rw [List.forall_mem_cons, ih, Expr.identifiersOfList, Expr.literalsOfList,
          List.forall_mem_append, List.forall_mem_append, Expr.Printable, and_and_and_comm]
  rw [hargs, Expr.Printable, Expr.identifiers, Expr.literals, List.forall_mem_cons, and_assoc]

/-- A statement can be printed if its parts can and if it has them. -/
theorem Stmt.printable_iff {s : Stmt} :
    s.Printable ↔ (∀ x ∈ s.introduced, IsName x) ∧
      (∀ v ∈ s.typedNames, ∀ typ ∈ v.typ, IsName typ) ∧
      (∀ e ∈ s.expression?, e.Printable) ∧ (∀ l ∈ s.caseValues, l.Printable) ∧
      s.IsComplete ∧ s.DefaultLast := by
  have hexpression : (∀ e ∈ s.expression?, e.Printable) ↔
      (∀ x ∈ (s.expression?.map Expr.identifiers).getD [], IsName x) ∧
        ∀ l ∈ (s.expression?.map Expr.literals).getD [], l.Printable := by
    cases s.expression? <;> simp [Expr.Printable]
  have htypes : (∀ typ ∈ s.types, IsName typ) ↔
      (∀ v ∈ s.typedNames, ∀ typ ∈ v.typ, IsName typ) ∧
        ∀ l ∈ s.literals, ∀ typ ∈ l.typ, IsName typ := by
    simp only [Stmt.types, List.forall_mem_append, List.forall_mem_filterMap, Option.mem_def]
  have hliterals : (∀ l ∈ s.literals, l.Printable) ↔
      (∀ l ∈ s.literals, l.IsSpelled) ∧ ∀ l ∈ s.literals, ∀ typ ∈ l.typ, IsName typ :=
    forall₂_and
  have hsplit : (∀ l ∈ s.literals, l.Printable) ↔
      (∀ l ∈ (s.expression?.map Expr.literals).getD [], l.Printable) ∧
        ∀ l ∈ s.caseValues, l.Printable := List.forall_mem_append
  have hnames : (∀ x ∈ s.identifiers, IsName x) ↔ (∀ x ∈ s.introduced, IsName x) ∧
      ∀ x ∈ (s.expression?.map Expr.identifiers).getD [], IsName x := List.forall_mem_append
  constructor
  · rintro ⟨hn, hlast, ht, hl, hcomplete⟩
    obtain ⟨hintroduced, hidentifiers⟩ := hnames.mp hn
    obtain ⟨hv, htyp⟩ := htypes.mp ht
    obtain ⟨hinside, hvalues⟩ := hsplit.mp (hliterals.mpr ⟨hl, htyp⟩)
    exact ⟨hintroduced, hv, hexpression.mpr ⟨hidentifiers, hinside⟩, hvalues, hcomplete, hlast⟩
  · rintro ⟨hintroduced, hv, he, hvalues, hcomplete, hlast⟩
    obtain ⟨hidentifiers, hinside⟩ := hexpression.mp he
    obtain ⟨hl, htyp⟩ := hliterals.mp (hsplit.mpr ⟨hinside, hvalues⟩)
    exact ⟨hnames.mpr ⟨hintroduced, hidentifiers⟩, hlast, htypes.mpr ⟨hv, htyp⟩, hl, hcomplete⟩

section Parts

variable {e : Expr} {body : Block}

attribute [local simp] Stmt.printable_iff Stmt.introduced Stmt.typedNames Stmt.expression?
  Stmt.caseValues Stmt.IsComplete Stmt.DefaultLast

@[simp] theorem Stmt.printable_expr :
    (Stmt.expr e).Printable ↔ e.Printable ∧ e.isCall = true := by
  simp

@[simp] theorem Stmt.printable_assign {targets : List String} :
    (Stmt.assign targets e).Printable ↔
      targets ≠ [] ∧ (∀ x ∈ targets, IsName x) ∧ e.Printable := by
  simpa [and_assoc] using and_rotate.symm

theorem TypedName.forall_printable {vs : List TypedName} :
    (∀ v ∈ vs, v.Printable) ↔
      (∀ x ∈ TypedName.names vs, IsName x) ∧ ∀ v ∈ vs, ∀ typ ∈ v.typ, IsName typ := by
  rw [TypedName.names, List.forall_mem_map]
  exact forall₂_and

@[simp] theorem Stmt.printable_declare {vars : List TypedName} {value : Option Expr} :
    (Stmt.declare vars value).Printable ↔
      vars ≠ [] ∧ (∀ v ∈ vars, v.Printable) ∧ ∀ e ∈ value, e.Printable := by
  rw [Stmt.printable_iff, TypedName.forall_printable]
  constructor
  · rintro ⟨hnames, htypes, hvalue, -, hne, -⟩
    exact ⟨hne, ⟨hnames, htypes⟩, hvalue⟩
  · rintro ⟨hne, ⟨hnames, htypes⟩, hvalue⟩
    exact ⟨hnames, htypes, hvalue, fun _ hl => (nomatch hl), hne, trivial⟩

@[simp] theorem Stmt.printable_define {f : String} {params returns : List TypedName} :
    (Stmt.define f params returns body).Printable ↔
      IsName f ∧ (∀ v ∈ params, v.Printable) ∧ ∀ v ∈ returns, v.Printable := by
  rw [← List.forall_mem_append, TypedName.forall_printable]
  simp [and_assoc]

@[simp] theorem Stmt.printable_branch : (Stmt.branch e body).Printable ↔ e.Printable := by
  simp

@[simp] theorem Stmt.printable_switch {cases : List Case} :
    (Stmt.switch e cases).Printable ↔
      e.Printable ∧ (∀ c ∈ cases, ∀ l ∈ c.value, l.Printable) ∧
        cases ≠ [] ∧ ∀ c ∈ cases.dropLast, c.value.isSome = true := by
  rw [Stmt.printable_iff]
  constructor
  · rintro ⟨-, -, he, hvalues, -, hcases⟩
    exact ⟨he e rfl, List.forall_mem_filterMap.mp hvalues, hcases⟩
  · rintro ⟨he, hvalues, hcases⟩
    refine ⟨fun _ hx => (nomatch hx), fun _ hv => (nomatch hv), ?_,
      List.forall_mem_filterMap.mpr hvalues, trivial, hcases⟩
    rintro _ ⟨⟩
    exact he

@[simp] theorem Stmt.printable_loop {pre post : Block} :
    (Stmt.loop pre e post body).Printable ↔ e.Printable := by
  simp

@[simp] theorem Stmt.printable_block : (Stmt.block body).Printable := by
  simp

@[simp] theorem Stmt.printable_break : Stmt.break.Printable := by
  simp

@[simp] theorem Stmt.printable_continue : Stmt.continue.Printable := by
  simp

@[simp] theorem Stmt.printable_leave : Stmt.leave.Printable := by
  simp

end Parts

/-! ## Trees whose lexemes are tokens -/

/-- A literal is spelled as its kind has it if its text without the type is one token. -/
theorem Literal.isSpelled_iff {l : Literal} : l.IsSpelled ↔ l.lexeme.IsToken := by
  obtain ⟨kind, value, typ⟩ := l
  cases kind with
  | number => exact Iff.rfl
  | boolean =>
      constructor
      · rintro (rfl | rfl)
        · exact Keyword.isToken .trueK
        · exact Keyword.isToken .falseK
      · intro h
        have hmatches := h.matches
        by_cases hvalue : value = "true"
        · exact Or.inl hvalue
        · simp only [lexeme, hvalue, if_false, Token.Kind.Matches, String.toList_inj] at hmatches
          exact Or.inr hmatches
  | string =>
      constructor
      · intro h
        have htoken := Piece.next?_string h []
        rw [Lexeme.isToken_iff]
        simpa [lexeme] using htoken
      · intro h
        obtain ⟨v, hv, helements⟩ := h.matches
        have hv : value.toList = v := by simpa [lexeme] using hv
        rwa [← hv] at helements

/-- Lexemes that are tokens. -/
def AllTokens (ls : List Lexeme) : Prop :=
  ∀ l ∈ ls, l.IsToken

@[simp] theorem allTokens_append {ls ms : List Lexeme} :
    AllTokens (ls ++ ms) ↔ AllTokens ls ∧ AllTokens ms :=
  List.forall_mem_append

theorem AllTokens.of_commaLexemes {lss : List (List Lexeme)} (h : AllTokens (commaLexemes lss)) :
    ∀ ls ∈ lss, AllTokens ls := by
  induction lss with
  | nil => exact fun _ hls => nomatch hls
  | cons ls rest ih =>
      by_cases hnil : rest = []
      · subst hnil
        exact List.forall_mem_singleton.mpr h
      · rw [commaLexemes_cons ls hnil, allTokens_append, allTokens_append] at h
        exact List.forall_mem_cons.mpr ⟨h.1.1, ih h.2⟩

theorem AllTokens.isName {x : String} (h : AllTokens [.name x]) : IsName x :=
  h (.name x) (List.mem_cons_self ..)

theorem AllTokens.isName_of_typ {typ : Option String} (h : AllTokens (typeLexemes typ)) :
    ∀ x ∈ typ, IsName x := by
  rintro x rfl
  exact h (.name x) (by simp [typeLexemes])

theorem TypedName.printable_of_lexemes {v : TypedName} (h : AllTokens v.lexemes) :
    v.Printable := by
  rw [lexemes, allTokens_append] at h
  exact ⟨h.1.isName, h.2.isName_of_typ⟩

theorem TypedName.printable_of_listLexemes {vs : List TypedName} (h : AllTokens (listLexemes vs)) :
    ∀ v ∈ vs, v.Printable :=
  fun _ hv => printable_of_lexemes (h.of_commaLexemes _ (List.mem_map_of_mem hv))

theorem Literal.printable_of_lexemes {l : Literal} (h : AllTokens l.lexemes) : l.Printable := by
  rw [lexemes, allTokens_append] at h
  exact ⟨Literal.isSpelled_iff.mpr (List.forall_mem_singleton.mp h.1), h.2.isName_of_typ⟩

mutual

theorem Expr.printable_of_lexemes : (e : Expr) → AllTokens e.lexemes → e.Printable
  | .literal _, h => Expr.printable_literal.mpr (Literal.printable_of_lexemes h)
  | .variable _, h => Expr.printable_variable.mpr h.isName
  | .call f args, h => by
      simp only [Expr.lexemes, allTokens_append] at h
      exact Expr.printable_call.mpr ⟨h.1.1.1.isName,
        Expr.printable_of_lexemesOfList args h.1.2.of_commaLexemes⟩

theorem Expr.printable_of_lexemesOfList : (es : List Expr) →
    (∀ ls ∈ Expr.lexemesOfList es, AllTokens ls) → ∀ e ∈ es, e.Printable
  | [], _ => fun _ he => nomatch he
  | e :: rest, h => by
      rw [Expr.lexemesOfList, List.forall_mem_cons] at h
      exact List.forall_mem_cons.mpr ⟨Expr.printable_of_lexemes e h.1,
        Expr.printable_of_lexemesOfList rest h.2⟩

end

theorem Expr.printable_of_initializerLexemes {value : Option Expr}
    (h : AllTokens (initializerLexemes value)) : ∀ e ∈ value, e.Printable := by
  rintro e rfl
  rw [initializerLexemes, allTokens_append] at h
  exact e.printable_of_lexemes h.2

theorem TypedName.printable_of_returnsLexemes {rs : List TypedName}
    (h : AllTokens (returnsLexemes rs)) : ∀ v ∈ rs, v.Printable := by
  cases rs with
  | nil => exact fun _ hv => nomatch hv
  | cons r rs =>
      exact printable_of_listLexemes (allTokens_append.mp h).2

theorem Literal.printable_of_caseHeadLexemes {value : Option Literal}
    (h : AllTokens (caseHeadLexemes value)) : ∀ l ∈ value, l.Printable := by
  rintro l rfl
  rw [caseHeadLexemes, allTokens_append] at h
  exact printable_of_lexemes h.2

mutual

/-- A statement that has the shape that the grammar asks for can be printed if its lexemes are
tokens. -/
theorem Stmt.printable_of_lexemes : (s : Stmt) → s.Each Stmt.Formed → AllTokens s.lexemes →
    s.Each Stmt.Printable
  | .expr e, hs, h => List.forall_mem_singleton.mpr
      (Stmt.printable_expr.mpr ⟨e.printable_of_lexemes h, hs.head.1⟩)
  | .assign targets value, hs, h => by
      simp only [Stmt.lexemes, allTokens_append] at h
      refine List.forall_mem_singleton.mpr (Stmt.printable_assign.mpr
        ⟨hs.head.1, fun x hx => ?_, value.printable_of_lexemes h.2⟩)
      exact (h.1.1.of_commaLexemes _ (List.mem_map_of_mem hx)).isName
  | .declare vars value, hs, h => by
      simp only [Stmt.lexemes, allTokens_append] at h
      exact List.forall_mem_singleton.mpr (Stmt.printable_declare.mpr ⟨hs.head.1,
        TypedName.printable_of_listLexemes h.1.2, Expr.printable_of_initializerLexemes h.2⟩)
  | .define f params returns body, hs, h => by
      simp only [Stmt.lexemes, bracedLexemes, allTokens_append] at h
      obtain ⟨⟨⟨⟨⟨⟨-, hf⟩, -⟩, hparams⟩, -⟩, hreturns⟩, ⟨-, hbody⟩, -⟩ := h
      exact Stmt.each_define.mpr ⟨Stmt.printable_define.mpr ⟨hf.isName,
          TypedName.printable_of_listLexemes hparams,
          TypedName.printable_of_returnsLexemes hreturns⟩,
        Block.printable_of_lexemes body (Stmt.each_define.mp hs).2 hbody⟩
  | .branch condition body, hs, h => by
      simp only [Stmt.lexemes, bracedLexemes, allTokens_append] at h
      obtain ⟨⟨-, hcondition⟩, ⟨-, hbody⟩, -⟩ := h
      exact Stmt.each_branch.mpr
        ⟨Stmt.printable_branch.mpr (condition.printable_of_lexemes hcondition),
          Block.printable_of_lexemes body (Stmt.each_branch.mp hs).2 hbody⟩
  | .switch scrutinee cases, hs, h => by
      simp only [Stmt.lexemes, allTokens_append] at h
      obtain ⟨hvalues, hbodies⟩ :=
        Case.printable_of_lexemes cases (Stmt.each_switch.mp hs).2 h.2
      exact Stmt.each_switch.mpr ⟨Stmt.printable_switch.mpr
        ⟨scrutinee.printable_of_lexemes h.1.2, hvalues, hs.head.2⟩, hbodies⟩
  | .loop pre condition post body, hs, h => by
      simp only [Stmt.lexemes, bracedLexemes, allTokens_append] at h
      obtain ⟨⟨⟨⟨-, ⟨-, hpre⟩, -⟩, hcondition⟩, ⟨-, hpost⟩, -⟩, ⟨-, hbody⟩, -⟩ := h
      obtain ⟨-, hpreFormed, hpostFormed, hbodyFormed⟩ := Stmt.each_loop.mp hs
      exact Stmt.each_loop.mpr
        ⟨Stmt.printable_loop.mpr (condition.printable_of_lexemes hcondition),
          Block.printable_of_lexemes pre hpreFormed hpre,
          Block.printable_of_lexemes post hpostFormed hpost,
          Block.printable_of_lexemes body hbodyFormed hbody⟩
  | .break, _, _ => List.forall_mem_singleton.mpr Stmt.printable_break
  | .continue, _, _ => List.forall_mem_singleton.mpr Stmt.printable_continue
  | .leave, _, _ => List.forall_mem_singleton.mpr Stmt.printable_leave
  | .block body, hs, h => by
      simp only [Stmt.lexemes, bracedLexemes, allTokens_append] at h
      exact Stmt.each_block.mpr ⟨Stmt.printable_block,
        Block.printable_of_lexemes body (Stmt.each_block.mp hs).2 h.1.2⟩

theorem Block.printable_of_lexemes : (b : List Stmt) → Block.Each Stmt.Formed b →
    AllTokens (Block.innerLexemes b) → Block.Each Stmt.Printable b
  | [], _, _ => Block.each_nil
  | s :: rest, hb, h => by
      rw [Block.each_cons] at hb
      rw [Block.innerLexemes, allTokens_append] at h
      exact Block.each_cons.mpr ⟨Stmt.printable_of_lexemes s hb.1 h.1,
        Block.printable_of_lexemes rest hb.2 h.2⟩

theorem Case.printable_of_lexemes : (cases : List Case) → Case.Each Stmt.Formed cases →
    AllTokens (Case.lexemes cases) →
    (∀ c ∈ cases, ∀ l ∈ c.value, l.Printable) ∧ Case.Each Stmt.Printable cases
  | [], _, _ => ⟨fun _ hc => (nomatch hc), Case.each_nil⟩
  | ⟨value, body⟩ :: rest, hcases, h => by
      rw [Case.each_cons] at hcases
      simp only [Case.lexemes, bracedLexemes, allTokens_append] at h
      obtain ⟨⟨hvalue, ⟨-, hbody⟩, -⟩, hrest⟩ := h
      obtain ⟨hvalues, hbodies⟩ := Case.printable_of_lexemes rest hcases.2 hrest
      exact ⟨List.forall_mem_cons.mpr ⟨Literal.printable_of_caseHeadLexemes hvalue, hvalues⟩,
        Case.each_cons.mpr ⟨Block.printable_of_lexemes body hcases.1 hbody, hbodies⟩⟩

end

end SwitchHoist
