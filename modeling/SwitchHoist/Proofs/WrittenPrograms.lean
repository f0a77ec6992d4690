import SwitchHoist.CommandLine
import SwitchHoist.Proofs.PassFaults
import SwitchHoist.Proofs.RoundTrip

/-!
# What is written for valid programs

The rules for programs are about names and switches, but not about types, literals, the number
of names in a declaration or what stands as a statement.  A valid program is read back from its
text just if these are as the grammar has them.  The pass keeps them so.
-/

namespace SwitchHoist

/-! ## What the rules say about tokens -/

/-- A name that breaks no rule is one identifier token. -/
theorem isName_of_identifierViolations {x : String} (h : identifierViolations x = []) :
    IsName x := by
  unfold identifierViolations at h
  split at h
  · cases h
  · split at h
    · next hidentifier =>
        split at h
        · cases h
        · next hreserved =>
            have hkey : ∀ k : Keyword, k.text ≠ x := by
              rintro k rfl
              exact hreserved (List.mem_append_left _ (List.mem_map_of_mem k.mem_all))
            exact (Lexeme.isToken_iff (l := .name x)).mpr (Piece.next?_identifier hidentifier hkey)
    · cases h

/-- A switch that breaks no rule has a case, and a default case at most in last place. -/
theorem Stmt.defaultLast_of_switchViolations {s : Stmt} (h : s.switchViolations = []) :
    s.DefaultLast := by
  match s, h with
  | .switch scrutinee (c :: cases), h =>
      exact ⟨List.cons_ne_nil c cases,
        defaultViolations_eq_nil_iff_dropLast.mp (List.append_eq_nil_iff.mp h).1⟩
  | .expr _, _ | .assign .., _ | .declare .., _ | .define .., _ | .branch .., _ | .loop .., _
  | .break, _ | .continue, _ | .leave, _ | .block _, _ => trivial

instance (b : Block) : Decidable (Block.Each Stmt.Spelled b) :=
  inferInstanceAs (Decidable (∀ t ∈ Block.subtrees b, t.Spelled))

/-- A valid program can be printed if its types and literals are tokens and its statements are
complete. -/
theorem Block.IsValid.printable_iff {b : Block} (h : b.IsValid) :
    b.Printable ↔ Block.Each Stmt.Spelled b := by
  constructor
  · exact fun hb s hs => (hb s hs).spelled
  · intro hb s hs
    have hnames := Stmt.nameViolations_eq_nil_iff.mp ((Block.isValid_iff.mp h).1 s hs)
    exact ⟨fun x hx => isName_of_identifierViolations (hnames x hx),
      Stmt.defaultLast_of_switchViolations (h.each_switch s hs), hb s hs⟩

/-! ## The pass -/

mutual

/-- Renaming changes no literal. -/
theorem Expr.literals_rename (ρ : Renaming) (scopes : Scopes) :
    (e : Expr) → (e.rename ρ scopes).literals = e.literals
  | .literal _ => rfl
  | .variable _ => rfl
  | .call _ args => Expr.literalsOfList_renameList ρ scopes args

theorem Expr.literalsOfList_renameList (ρ : Renaming) (scopes : Scopes) :
    (es : List Expr) → Expr.literalsOfList (Expr.renameList ρ scopes es) = Expr.literalsOfList es
  | [] => rfl
  | e :: rest => by
      rw [Expr.renameList, Expr.literalsOfList, Expr.literals_rename ρ scopes e,
        Expr.literalsOfList_renameList ρ scopes rest, Expr.literalsOfList]

end

@[simp] theorem Expr.isCall_rename (ρ : Renaming) (scopes : Scopes) (e : Expr) :
    (e.rename ρ scopes).isCall = e.isCall := by
  cases e <;> rfl

/-- Renaming keeps the literals of a statement. -/
theorem Stmt.literals_rename (ρ : Renaming) (s : Stmt) (scopes : Scopes) :
    (s.rename ρ scopes).1.literals = s.literals := by
  have hvalue (e : Expr) (scopes : Scopes) : (e.rename ρ scopes).literals = e.literals :=
    e.literals_rename ρ scopes
  cases s with
  | declare vars value =>
      cases value <;> simp [literals, Stmt.rename, expression?, caseValues, hvalue]
  | switch e cases =>
      have hcases : (Case.renameFrom ρ cases scopes).1.filterMap Case.value =
          cases.filterMap Case.value := by
        rw [Case.filterMap_value, Case.map_value_renameFrom, ← Case.filterMap_value]
      simp [literals, Stmt.rename, expression?, caseValues, hvalue, hcases]
  | _ => simp [literals, Stmt.rename, expression?, caseValues, hvalue]

/-- Renaming leaves a statement complete. -/
theorem Stmt.IsComplete.rename {s : Stmt} (h : s.IsComplete) (ρ : Renaming) (scopes : Scopes) :
    (s.rename ρ scopes).1.IsComplete := by
  cases s with
  | expr e => exact (Expr.isCall_rename ρ scopes e).trans h
  | assign targets value => exact List.map_eq_nil_iff.not.mpr h
  | _ => exact h

/-- Types, literals and completeness decide whether a statement is spelled. -/
theorem Stmt.Spelled.congr {s t : Stmt} (h : s.Spelled) (hnames : t.typedNames = s.typedNames)
    (hliterals : t.literals = s.literals) (hcomplete : t.IsComplete) : t.Spelled where
  types := by
    rw [Stmt.types, hnames, hliterals]
    exact h.types
  literals := by
    rw [hliterals]
    exact h.literals
  complete := hcomplete

theorem Stmt.stable_spelled : Stmt.Stable Stmt.Spelled where
  resembles := by
    intro s t h hs
    cases h with
    | refl => exact hs
    | switch e hcases =>
        refine hs.congr rfl ?_ trivial
        rw [literals, literals, caseValues, caseValues, Case.filterMap_value, Case.filterMap_value,
          Case.Resembles.map_value hcases]
        rfl
    | _ => exact hs.congr rfl rfl hs.complete
  rename := by
    intro ρ s scopes _ hs
    have hnames : (s.rename ρ scopes).1.typedNames = s.typedNames := by cases s <;> rfl
    exact hs.congr hnames (s.literals_rename ρ scopes) (hs.complete.rename ρ scopes)

/-- Steps that run one after another keep a stable property of all statements. -/
theorem Block.each_of_optimize {P : Stmt → Prop} (hP : Stmt.Stable P) {steps : List Step}
    {b b' : Block} (h : b.optimize steps = .ok b') (hb : Block.Each P b) : Block.Each P b' := by
  induction steps generalizing b with
  | nil =>
      cases h
      exact hb
  | cons step rest ih =>
      rw [Block.optimize_cons, bind_eq_ok_iff] at h
      obtain ⟨q, hq, hrest⟩ := h
      refine ih hrest ?_
      cases step
      exact (Block.hoists_of_eq_ok b (checked_eq_ok_iff.mp hq).1).each hP hb

/-- What a request writes as text for a valid program is the text of the program behind its
steps, as a line. -/
theorem Block.IsValid.outcomeOfText_eq {b : Block} (h : b.IsValid) {request : Request}
    {content : String} (hread : request.input.read content = .ok b)
    (hformat : request.output.format = .text) {b' : Block}
    (hb' : b.optimize request.steps = .ok b') :
    request.outcomeOfText content = .ok (b'.text ++ "\n") := by
  have hwrite : request.output.write b' = b'.text ++ "\n" := by rw [ProgramFile.write, hformat]
  rw [Request.outcomeOfText, bind_eq_ok_iff]
  refine ⟨b, hread, ?_⟩
  rw [if_pos h, hb', ← hwrite]

/-- A valid program is read back from its text, and is read from a text at all, exactly if its
types and literals are tokens and its statements are complete.  What is written for it as text
is read back exactly if this holds behind the steps, as it does if it holds in front of them. -/
theorem Block.IsValid.parse_text_iff_spelled {b : Block} (h : b.IsValid) :
    (Block.parse b.text = .ok b ↔ Block.Each Stmt.Spelled b) ∧
    ((∃ code, Block.parse code = .ok b) ↔ Block.Each Stmt.Spelled b) ∧
    ∀ (request : Request) (content : String), request.input.read content = .ok b →
      request.output.format = .text →
      ∃ b' text, b.optimize request.steps = .ok b' ∧ request.outcomeOfText content = .ok text ∧
        (Block.parse text = .ok b' ↔ Block.Each Stmt.Spelled b') ∧
        (Block.Each Stmt.Spelled b → Block.Each Stmt.Spelled b') := by
  have hspelled : ∀ {code}, Block.parse code = .ok b → Block.Each Stmt.Spelled b :=
    fun hcode => h.printable_iff.mp (Block.printable_of_parse hcode)
  have hparse : Block.Each Stmt.Spelled b → Block.parse b.text = .ok b :=
    fun hb => (h.printable_iff.mpr hb).parse_text
  refine ⟨⟨hspelled, hparse⟩, ⟨fun ⟨_, hcode⟩ => hspelled hcode, fun hb => ⟨b.text, hparse hb⟩⟩, ?_⟩
  intro request content hread hformat
  obtain ⟨b', hb', hvalid⟩ := h.exists_optimize request.steps
  refine ⟨b', b'.text ++ "\n", hb', h.outcomeOfText_eq hread hformat hb', ⟨?_, ?_⟩, ?_⟩
  · exact fun hcode => hvalid.printable_iff.mp (Block.printable_of_parse hcode)
  · exact fun hspelled' => (hvalid.printable_iff.mpr hspelled').parse_text_newline
  · exact Block.each_of_optimize Stmt.stable_spelled hb'

/-- Hoists in a program that is written as text, and writes it as text again. -/
def hoistText : Request :=
  ⟨[.commonSwitchPrefix], ⟨.text, "in.il"⟩, ⟨.text, "out.il"⟩⟩

theorem redeclared_parse_text_iff_spelled :
    redeclared.IsValid ∧ Block.parse redeclared.text = .ok redeclared ∧
    ∃ b' text, redeclared.optimize [.commonSwitchPrefix] = .ok b' ∧
      hoistText.outcomeOfText redeclared.text = .ok text ∧ Block.parse text = .ok b' := by
  have hvalid : redeclared.IsValid := by decide +kernel
  have hspelled : Block.Each Stmt.Spelled redeclared := by decide +kernel
  obtain ⟨⟨-, hparse⟩, -, hwritten⟩ := Block.IsValid.parse_text_iff_spelled hvalid
  have hread : hoistText.input.read redeclared.text = .ok redeclared := by
    rw [ProgramFile.read, hoistText, hparse hspelled]
  obtain ⟨b', text, hb', houtcome, hback, hkept⟩ := hwritten hoistText redeclared.text hread rfl
  exact ⟨hvalid, hparse hspelled, b', text, hb', houtcome, hback.mpr (hkept hspelled)⟩

/-- A declaration without a name. -/
def unnamedDeclaration : Block :=
  [.declare [] none]

/-- Reads a program in a JSON file and writes it as text. -/
def jsonToText : Request :=
  ⟨[], ⟨.json, "in.json"⟩, ⟨.text, "out.il"⟩⟩

/-- The declaration is valid and can be read from a JSON file, but what is written for it as text
is not a program. -/
theorem unnamedDeclaration_not_read_back :
    unnamedDeclaration.IsValid ∧
      jsonToText.input.read unnamedDeclaration.toJson.compact = .ok unnamedDeclaration ∧
      jsonToText.outcomeOfText unnamedDeclaration.toJson.compact =
        .ok (unnamedDeclaration.text ++ "\n") ∧
      (∀ b, Block.parse (unnamedDeclaration.text ++ "\n") ≠ .ok b) ∧
      Block.parse unnamedDeclaration.text ≠ .ok unnamedDeclaration := by
  have hvalid : unnamedDeclaration.IsValid := by decide +kernel
  have hjson : Block.parseJson? unnamedDeclaration.toJson.compact = some unnamedDeclaration := by
    decide +kernel
  have hread :
      jsonToText.input.read unnamedDeclaration.toJson.compact = .ok unnamedDeclaration := by
    rw [ProgramFile.read, jsonToText, hjson]
  have hrejected : (Block.parse (unnamedDeclaration.text ++ "\n")).isOk = false := by
    decide +kernel
  refine ⟨hvalid, hread, hvalid.outcomeOfText_eq hread rfl rfl, fun b hb => ?_, fun hparse => ?_⟩
  · rw [hb] at hrejected
    cases hrejected
  · have hunprintable : ¬ unnamedDeclaration.Printable := by decide +kernel
    exact hunprintable (Block.printable_of_parse hparse)

end SwitchHoist
