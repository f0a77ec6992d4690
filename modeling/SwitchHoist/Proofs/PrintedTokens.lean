import SwitchHoist.Program.Printer
import SwitchHoist.Proofs.PrintableTrees

/-!
# The tokens of a printed program

The printer writes the tokens of a tree one after another, with blanks and line ends between
some of them.  If the tree can be printed, the lexer finds just these tokens in the text: a
word, a number and a string are always followed by a blank, a line end or a mark, and a colon
is followed by a name.
-/

namespace SwitchHoist

/-! ## Texts that spell lexemes -/

/-- A text that is cut into lexemes in front of every text that no token goes on with. -/
def Spells (s : String) (ls : List Lexeme) : Prop :=
  ∀ cs ms, Apart cs → Tokenizes cs ms → Tokenizes (s.toList ++ cs) (ls ++ ms)

/-- A text that is cut into lexemes in front of every text. -/
def Leads (s : String) (ls : List Lexeme) : Prop :=
  ∀ cs ms, Tokenizes cs ms → Tokenizes (s.toList ++ cs) (ls ++ ms)

section Joining

variable {s t : String} {ls ms : List Lexeme}

theorem Leads.spells (h : Leads s ls) : Spells s ls :=
  fun cs ms _ hcs => h cs ms hcs

theorem Leads.append (hs : Leads s ls) (ht : Leads t ms) : Leads (s ++ t) (ls ++ ms) := by
  intro cs ns hcs
  rw [String.toList_append, List.append_assoc, List.append_assoc]
  exact hs _ _ (ht _ _ hcs)

theorem Leads.append_spells (hs : Leads s ls) (ht : Spells t ms) :
    Spells (s ++ t) (ls ++ ms) := by
  intro cs ns hapart hcs
  rw [String.toList_append, List.append_assoc, List.append_assoc]
  exact hs _ _ (ht _ _ hapart hcs)

theorem Spells.append (hs : Spells s ls) (ht : Spells t ms) (happart : Apart t.toList) :
    Spells (s ++ t) (ls ++ ms) := by
  intro cs ns hcs hns
  rw [String.toList_append, List.append_assoc, List.append_assoc]
  exact hs _ _ (happart.append hcs) (ht _ _ hcs hns)

theorem Spells.append_leads (hs : Spells s ls) (ht : Leads t ms) (happart : Apart t.toList)
    (hne : t ≠ "") : Leads (s ++ t) (ls ++ ms) := by
  intro cs ns hcs
  rw [String.toList_append, List.append_assoc, List.append_assoc]
  refine hs _ _ ?_ (ht _ _ hcs)
  obtain ⟨c, tail, htail⟩ := List.exists_cons_of_ne_nil (mt String.toList_eq_nil_iff.mp hne)
  rw [htail] at happart ⊢
  exact apart_cons.mpr (apart_cons.mp happart)

end Joining

theorem Lexeme.IsToken.spells {l : Lexeme} (h : l.IsToken) : Spells l.text [l] :=
  fun _ _ happart hcs => h.tokenizes_append happart hcs

theorem Leads.mark (m : Mark) (hm : m ≠ .colon) : Leads m.text [.mark m] :=
  fun _ _ hcs => hcs.mark fun h => absurd h hm

theorem Leads.blanks {s : String} (hs : s.toList.all isBlank = true) : Leads s [] := by
  intro cs ms hcs
  rw [List.nil_append]
  revert hs
  induction s.toList with
  | nil => exact fun _ => hcs
  | cons c rest ih =>
      intro hs
      rw [List.all_cons, Bool.and_eq_true] at hs
      exact (ih hs.2).blank hs.1

theorem Leads.blank : Leads " " [] :=
  .blanks (by decide)

theorem Leads.newline : Leads "\n" [] :=
  .blanks (by decide)

theorem Leads.empty : Leads "" [] :=
  .blanks (by decide)

theorem Spells.then_blank {s : String} {ls : List Lexeme} (h : Spells s ls) :
    Leads (s ++ " ") ls := by
  simpa using h.append_leads .blank (by decide) (by decide)

theorem Spells.then_newline {s : String} {ls : List Lexeme} (h : Spells s ls) :
    Leads (s ++ "\n") ls := by
  simpa using h.append_leads .newline (by decide) (by decide)

theorem Leads.indentation (level : Nat) : Leads (indentation level) [] := by
  induction level with
  | zero => exact .empty
  | succ level ih => exact Leads.append (.blanks (by decide)) ih

theorem Spells.keyword (k : Keyword) : Spells k.text [.keyword k] :=
  k.isToken.spells

/-- A keyword with a blank behind it. -/
theorem Leads.keyword (k : Keyword) : Leads (k.text ++ " ") [.keyword k] :=
  (Spells.keyword k).then_blank

theorem IsName.spells {x : String} (h : IsName x) : Spells x [.name x] :=
  Lexeme.IsToken.spells (l := Lexeme.name x) h

theorem Leads.gets : Leads " := " [.mark .gets] :=
  (Leads.blank.append (.mark .gets (by decide))).append .blank

theorem Leads.comma : Leads ", " [.mark .comma] :=
  (Leads.mark .comma (by decide)).append .blank

theorem Leads.openParen : Leads "(" [.mark .openParen] :=
  .mark .openParen (by decide)

theorem Leads.closeParen : Leads ")" [.mark .closeParen] :=
  .mark .closeParen (by decide)

/-! ## Names, literals and expressions -/

/-- A name does not start with the second character of `:=`. -/
theorem IsName.head_ne {x : String} (h : IsName x) : ∀ c ∈ x.toList.head?, c ≠ '=' := by
  have hx : isIdentifier (String.ofList x.toList) = true :=
    Lexeme.IsToken.matches (l := Lexeme.name x) h
  rw [String.ofList_toList, isIdentifier] at hx
  rintro c hc rfl
  obtain ⟨rest, hrest⟩ := List.head?_eq_some_iff.mp hc
  rw [hrest] at hx
  cases hx

theorem Spells.typeSuffix {typ : Option String} (h : ∀ x ∈ typ, IsName x) :
    Spells (typeSuffix typ) (typeLexemes typ) := by
  cases typ with
  | none => exact Leads.empty.spells
  | some x =>
      have hx := h x rfl
      intro cs ms hcs hms
      have hhead : ∀ c ∈ (x.toList ++ cs).head?, c ≠ '=' := by
        intro c hc
        rw [List.head?_append] at hc
        rcases Option.or_eq_some_iff.mp hc with hc | hc
        · exact hx.head_ne c hc
        · exact (hcs c hc.2).2
      rw [SwitchHoist.typeSuffix, String.toList_append, List.append_assoc]
      exact Tokenizes.mark (m := .colon) (hx.spells cs ms hcs hms) fun _ => hhead

theorem apart_typeSuffix (typ : Option String) : Apart (typeSuffix typ).toList := by
  cases typ with
  | none => decide
  | some x => simp [SwitchHoist.typeSuffix, isIdentPart]

theorem TypedName.Printable.spells {v : TypedName} (h : v.Printable) : Spells v.text v.lexemes :=
  h.1.spells.append (.typeSuffix h.2) (apart_typeSuffix _)

theorem Literal.Printable.spells {l : Literal} (h : l.Printable) : Spells l.text l.lexemes := by
  have hvalue := (Literal.isSpelled_iff.mp h.1).spells
  have hall := hvalue.append (.typeSuffix h.2) (apart_typeSuffix _)
  obtain ⟨kind, value, typ⟩ := l
  cases kind <;> exact hall

theorem Spells.commaSeparated {ss : List String} {lss : List (List Lexeme)}
    (h : List.Forall₂ Spells ss lss) : Spells (commaSeparated ss) (commaLexemes lss) := by
  induction h with
  | nil => exact Leads.empty.spells
  | @cons s ls ss lss hs hss ih =>
      cases hss with
      | nil => exact hs
      | cons hs' hss => exact (hs.append_leads .comma (by decide) (by decide)).append_spells ih

mutual

theorem Expr.spells : (e : Expr) → e.Printable → Spells e.text e.lexemes
  | .literal _, h => (Expr.printable_literal.mp h).spells
  | .variable _, h => (Expr.printable_variable.mp h).spells
  | .call f args, h => by
      rw [Expr.printable_call] at h
      exact (((h.1.spells.append_leads .openParen (by decide) (by decide)).append_spells
        (.commaSeparated (Expr.spellsOfList args h.2))).append_leads .closeParen (by decide)
          (by decide)).spells

theorem Expr.spellsOfList : (es : List Expr) → (∀ e ∈ es, e.Printable) →
    List.Forall₂ Spells (Expr.texts es) (Expr.lexemesOfList es)
  | [], _ => .nil
  | e :: rest, h => by
      rw [List.forall_mem_cons] at h
      exact .cons (Expr.spells e h.1) (Expr.spellsOfList rest h.2)

end

/-! ## Statements -/

theorem Spells.names {xs : List String} (h : ∀ x ∈ xs, IsName x) :
    Spells (SwitchHoist.commaSeparated xs) (namesLexemes xs) := by
  refine .commaSeparated ?_
  rw [List.forall₂_map_right_iff, List.forall₂_same]
  exact fun x hx => (h x hx).spells

theorem Spells.typedNames {vs : List TypedName} (h : ∀ v ∈ vs, v.Printable) :
    Spells (TypedName.texts vs) (TypedName.listLexemes vs) := by
  refine .commaSeparated ?_
  rw [List.forall₂_map_left_iff, List.forall₂_map_right_iff, List.forall₂_same]
  exact fun v hv => (h v hv).spells

theorem Spells.initializer {value : Option Expr} (h : ∀ e ∈ value, e.Printable) :
    Spells (initializer value) (initializerLexemes value) := by
  cases value with
  | none => exact Leads.empty.spells
  | some e => exact Leads.gets.append_spells (e.spells (h e rfl))

theorem apart_initializer (value : Option Expr) : Apart (initializer value).toList := by
  cases value with
  | none => decide
  | some e => simp [initializer, isIdentPart]

theorem Leads.arrow : Leads " -> " [.mark .arrow] :=
  (Leads.blank.append (.mark .arrow (by decide))).append .blank

theorem Spells.returns {rs : List TypedName} (h : ∀ v ∈ rs, v.Printable) :
    Spells (returnsText rs) (returnsLexemes rs) := by
  cases rs with
  | nil => exact Leads.empty.spells
  | cons v rest => exact Leads.arrow.append_spells (.typedNames h)

theorem Leads.caseHead {value : Option Literal} (h : ∀ l ∈ value, l.Printable) :
    Leads (caseHead value) (caseHeadLexemes value) := by
  cases value with
  | none => exact .keyword .defaultK
  | some l =>
      exact ((Leads.keyword .caseK).append_spells (h l rfl).spells).then_blank

/-- Lines in braces. -/
theorem Leads.braced (level : Nat) {texts : List String} {ls : List Lexeme}
    (h : Leads (concat (texts.map (blockLine (level + 1)))) ls) :
    Leads (braced level texts) (bracedLexemes ls) := by
  have hopen : Leads "\x7b" [.mark .openBrace] := .mark .openBrace (by decide)
  have hclose : Leads "\x7d" [.mark .closeBrace] := .mark .closeBrace (by decide)
  cases texts with
  | nil =>
      have hempty := ((hopen.append .blank).append h).append hclose
      simpa [SwitchHoist.braced, concat, bracedLexemes] using hempty
  | cons text texts =>
      have hlines := (((hopen.append .newline).append h).append (.indentation level)).append hclose
      simpa [SwitchHoist.braced, bracedLexemes] using hlines

theorem apart_casesText (level : Nat) (cases : List Case) :
    Apart (Case.textsAt level cases).toList := by
  cases cases with
  | nil => exact apart_nil
  | cons c rest =>
      obtain ⟨value, body⟩ := c
      rw [Case.textsAt]
      simp [isIdentPart]

theorem Leads.blockLine {level : Nat} {text : String} {ls : List Lexeme} (h : Spells text ls) :
    Leads (blockLine level text) ls := by
  have hline := (Leads.indentation level).append_spells h
  exact hline.then_newline

mutual

theorem Stmt.spells (level : Nat) : (s : Stmt) → s.Each Stmt.Printable →
    Spells (s.textAt level) s.lexemes
  | .expr e, h => e.spells (Stmt.printable_expr.mp h.head).1
  | .assign targets value, h => by
      obtain ⟨-, htargets, hvalue⟩ := Stmt.printable_assign.mp h.head
      exact ((Spells.names htargets).append_leads .gets (by decide) (by decide)).append_spells
        (value.spells hvalue)
  | .declare vars value, h => by
      obtain ⟨-, hvars, hvalue⟩ := Stmt.printable_declare.mp h.head
      exact ((Leads.keyword .letK).append_spells (.typedNames hvars)).append
        (.initializer hvalue) (apart_initializer value)
  | .define f params returns body, h => by
      rw [Stmt.each_define, Stmt.printable_define] at h
      obtain ⟨⟨hf, hparams, hreturns⟩, hbody⟩ := h
      have hname := (Leads.keyword .functionK).append_spells hf.spells
      have hopen := (hname.append_leads .openParen (by decide) (by decide)).append_spells
        (.typedNames hparams)
      have hclose := (hopen.append_leads .closeParen (by decide) (by decide)).append_spells
        (.returns hreturns)
      exact (hclose.then_blank.append (Block.leads level body hbody)).spells
  | .branch condition body, h => by
      rw [Stmt.each_branch, Stmt.printable_branch] at h
      have hhead := (Leads.keyword .ifK).append_spells (condition.spells h.1)
      exact (hhead.then_blank.append (Block.leads level body h.2)).spells
  | .switch scrutinee cases, h => by
      rw [Stmt.each_switch, Stmt.printable_switch] at h
      have hhead := (Leads.keyword .switchK).append_spells (scrutinee.spells h.1.1)
      exact hhead.append (Case.leads level cases h.1.2.1 h.2).spells (apart_casesText level cases)
  | .loop pre condition post body, h => by
      rw [Stmt.each_loop, Stmt.printable_loop] at h
      obtain ⟨hcondition, hpre, hpost, hbody⟩ := h
      have hfor := ((Leads.keyword .forK).append (Block.leads level pre hpre)).spells.then_blank
      have hcond := (hfor.append_spells (condition.spells hcondition)).then_blank
      have hblocks := (hcond.append (Block.leads level post hpost)).spells.then_blank
      exact (hblocks.append (Block.leads level body hbody)).spells
  | .break, _ => .keyword .breakK
  | .continue, _ => .keyword .continueK
  | .leave, _ => .keyword .leaveK
  | .block body, h => (Block.leads level body (Stmt.each_block.mp h).2).spells

theorem Block.leads (level : Nat) : (b : List Stmt) → Block.Each Stmt.Printable b →
    Leads (braced level (Block.textsAt (level + 1) b)) (bracedLexemes (Block.innerLexemes b))
  | b, h => .braced level (Block.leads_lines (level + 1) b h)

theorem Block.leads_lines (level : Nat) : (b : List Stmt) → Block.Each Stmt.Printable b →
    Leads (concat ((Block.textsAt level b).map (blockLine level))) (Block.innerLexemes b)
  | [], _ => .empty
  | s :: rest, h => by
      rw [Block.each_cons] at h
      exact (Leads.blockLine (Stmt.spells level s h.1)).append (Block.leads_lines level rest h.2)

theorem Case.leads (level : Nat) : (cases : List Case) →
    (∀ c ∈ cases, ∀ l ∈ c.value, l.Printable) → Case.Each Stmt.Printable cases →
    Leads (Case.textsAt level cases) (Case.lexemes cases)
  | [], _, _ => .empty
  | ⟨value, body⟩ :: rest, hvalues, h => by
      rw [List.forall_mem_cons] at hvalues
      rw [Case.each_cons] at h
      have hhead := ((Leads.newline.append (.indentation level)).append
        (.caseHead hvalues.1)).append (Block.leads level body h.1)
      exact hhead.append (Case.leads level rest hvalues.2 h.2)

end

/-- The lexer finds the tokens of a tree in its text, and no others, also when a line end is
written behind it. -/
theorem Block.Printable.tokenizes {b : Block} (h : b.Printable) :
    Tokenizes b.text.toList b.lexemes ∧ Tokenizes (b.text ++ "\n").toList b.lexemes := by
  have hleads : Leads b.text b.lexemes := Block.leads 0 b h
  constructor
  · simpa using hleads [] [] .nil
  · simpa using hleads ['\n'] [] (Tokenizes.nil.blank (by decide))

end SwitchHoist
