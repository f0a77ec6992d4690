import SwitchHoist.Proofs.AcceptedTokens
import SwitchHoist.Proofs.PrintedTokens
import SwitchHoist.Proofs.ReadTrees

/-!
# Printed programs are read back

A text is a program just if the lexer cuts it into the tokens of a tree that can be printed, and
then it is this tree.  The text of such a tree is cut into these tokens, so printing and reading
undo each other.
-/

namespace SwitchHoist

/-- Tokens that are the tokens of a program are read as this program. -/
theorem Block.ofTokens_of_lexemes {b : Block} {ts : List Token} (hb : Block.Each Stmt.Formed b)
    (h : ts.map Token.lexeme = b.lexemes) : Block.ofTokens ts = .ok b := by
  have hreads : Reads ts b.lexemes [] := ⟨ts, (List.append_nil ts).symm, h⟩
  have hlength : b.lexemes.length ≤ ts.length := (by simp [← h])
  have hblock := (Parser.block_readsBack hb (Parser.stmts_readBack b hb) hlength).eq_ok hreads
  have hprogram : Parser.program.run ts = .ok (b, []) :=
    Parser.bind_eq_ok.mpr ⟨ts.length, ts, rfl, Parser.bind_eq_ok.mpr ⟨b, [], hblock,
      Parser.bind_eq_ok.mpr ⟨none, [], rfl, rfl⟩⟩⟩
  have hne : ts ≠ [] := by
    rintro rfl
    simp [Block.lexemes, bracedLexemes] at h
  rw [Block.ofTokens, if_neg (by simpa using hne), hprogram]

/-- Tokens that are read as a program are the tokens of this program. -/
theorem Block.lexemes_of_ofTokens {b : Block} {ts : List Token} (hts : Proper ts)
    (h : Block.ofTokens ts = .ok b) :
    ts.map Token.lexeme = b.lexemes ∧ Block.Each Stmt.Formed b := by
  rw [Block.ofTokens] at h
  split at h
  · cases h
  · split at h
    · next c rest hprogram =>
        cases h
        obtain ⟨n, mid, hn, hprogram⟩ := Parser.bind_eq_ok.mp hprogram
        cases hn
        obtain ⟨c, behind, hblock, hend⟩ := Parser.bind_eq_ok.mp hprogram
        obtain ⟨_ | kind, behind', hkind, hend⟩ := Parser.bind_eq_ok.mp hend
        · obtain ⟨rfl, rfl⟩ := Parser.pure_eq_ok.mp hend
          obtain ⟨hnone, rfl⟩ := Parser.kind?_eq_ok.mp hkind
          obtain rfl : behind = [] := by simpa using hnone
          obtain ⟨⟨front, rfl, hfront⟩, heach⟩ := Parser.block_sound _ hts hblock
          rw [List.append_nil]
          exact ⟨hfront, heach⟩
        · exact absurd hend Parser.fail_ne_ok
    · cases h

/-- A text is a program just if its tokens are those of a tree that can be printed. -/
theorem Block.parse_eq_ok_iff {code : String} {b : Block} :
    Block.parse code = .ok b ↔ Tokenizes code.toList b.lexemes ∧ b.Printable := by
  constructor
  · intro h
    unfold Block.parse at h
    split at h
    · cases h
    · next ts hlex =>
        have hproper : Proper ts := isToken_of_lex hlex
        obtain ⟨hlexemes, hformed⟩ := Block.lexemes_of_ofTokens hproper h
        have htokenizes : Tokenizes code.toList b.lexemes := hlexemes ▸ Tokenizes.of_lexFrom hlex
        have htokens : AllTokens b.lexemes := htokenizes.isToken
        rw [Block.lexemes, bracedLexemes, allTokens_append, allTokens_append] at htokens
        exact ⟨htokenizes, Block.printable_of_lexemes b hformed htokens.1.2⟩
  · rintro ⟨htokenizes, hprintable⟩
    obtain ⟨ts, hlex, hlexemes⟩ := htokenizes.exists_lexFrom 0
    have hlex : lex code = .ok ts := hlex
    rw [Block.parse, hlex]
    exact Block.ofTokens_of_lexemes hprintable.formed hlexemes

theorem Block.Printable.parse_text {b : Block} (h : b.Printable) : Block.parse b.text = .ok b :=
  Block.parse_eq_ok_iff.mpr ⟨h.tokenizes.1, h⟩

/-- The text is also read with a line end behind it, as it stands in a file. -/
theorem Block.Printable.parse_text_newline {b : Block} (h : b.Printable) :
    Block.parse (b.text ++ "\n") = .ok b :=
  Block.parse_eq_ok_iff.mpr ⟨h.tokenizes.2, h⟩

theorem Block.printable_of_parse {code : String} {b : Block} (h : Block.parse code = .ok b) :
    b.Printable :=
  (Block.parse_eq_ok_iff.mp h).2

/-- The text of a tree that can be printed is read as this tree, and every tree that is read from
a text can be printed.  So printing what was read and reading it again changes neither the tree
nor its text. -/
theorem Block.parse_text_of_printable (b : Block) :
    (b.Printable → Block.parse b.text = .ok b) ∧
      ∀ code, Block.parse code = .ok b →
        b.Printable ∧ Block.parse b.text = .ok b ∧
          (Block.parse b.text).map Block.text = .ok b.text := by
  refine ⟨Block.Printable.parse_text, fun code hcode => ?_⟩
  have hprintable := Block.printable_of_parse hcode
  have hparse := hprintable.parse_text
  exact ⟨hprintable, hparse, by rw [hparse]; rfl⟩

/-- A program with every form of statement, with types, all kinds of literals and empty
blocks. -/
def everyForm : Block :=
  [.define "f" [⟨"a", some "u256"⟩, ⟨"b", none⟩] [⟨"c", none⟩]
    [.assign ["c", "b"] (.call "add" [.variable "a", .literal ⟨.number, "0x1F", some "u256"⟩]),
      .leave],
    .declare [⟨"x", none⟩, ⟨"y", some "bool"⟩]
      (some (.call "f" [.literal ⟨.string, "say \\\"hi\\\"", none⟩,
        .literal ⟨.boolean, "true", some "bool"⟩])),
    .declare [⟨"$z.1", none⟩] none,
    .loop [.declare [⟨"i", none⟩] (some (.number "0"))] (.call "lt" [.variable "i", .number "10"])
      [.assign ["i"] (.call "add" [.variable "i", .number "1"])]
      [.branch (.variable "x") [.break],
        .switch (.variable "y")
          [⟨some ⟨.boolean, "false", none⟩, [.continue]⟩, ⟨none, [.block []]⟩],
        .expr (.call "log" [])]]

theorem everyForm_parse_text :
    everyForm.Printable ∧ Block.parse everyForm.text = .ok everyForm ∧
      Block.parse (everyForm.text ++ "\n") = .ok everyForm ∧
      (Block.parse everyForm.text).map Block.text = .ok everyForm.text := by
  have hprintable : everyForm.Printable := by decide +kernel
  have hwritten := hprintable.parse_text_newline
  exact ⟨hprintable, (Block.parse_text_of_printable everyForm).1 hprintable, hwritten,
    ((Block.parse_text_of_printable everyForm).2 _ hwritten).2.2⟩

end SwitchHoist
