import SwitchHoist.Proofs.ProgramDerivations
import SwitchHoist.Proofs.RoundTrip

/-!
# The sentences of the grammar

Every derivation that follows the rules is read off a tree.  The parser reads the tokens of a
tree, with any tokens behind them, as this tree, and so it decides what the derivation of a
sentence is: no sentence has two derivations and no sentence starts another one.  The parser
accepts the sentences, and it returns the trees that their derivations are read off.
-/

namespace SwitchHoist

open Grammar

/-! ## Every derivation is the derivation of a tree -/

namespace Grammar

/-- The derivations from a nonterminal that are read off trees. -/
def Nonterminal.ofTrees : Nonterminal → Set Derivation
  | .block => Set.range Block.derivation
  | .statement => Set.range Stmt.derivation
  | .typedNames => Set.range (TypedName.listDerivation ∘ List.map TypedName.derivation)
  | .expression => Set.range Expr.derivation
  | .args => Set.range (Derivation.rule .args ∘ Derivation.listOf ∘ List.map Expr.derivation)
  | .literal => Set.range Literal.derivation

namespace Derivation

variable {d e : Derivation}

@[simp] theorem sizeOf_append (d e : Derivation) : sizeOf (d ++ e) = 1 + sizeOf d + sizeOf e :=
  rfl

theorem sizeOf_lt_repeated {ds : List Derivation} (h : e ∈ ds) :
    sizeOf e < sizeOf (repeated ds) := by
  induction ds with
  | nil => cases h
  | cons d rest ih =>
      rw [repeated, again.sizeOf_spec]
      rcases List.mem_cons.mp h with rfl | h
      · omega
      · have := ih h
        omega

theorem sizeOf_lt_listOf {ds : List Derivation} (h : e ∈ ds) : sizeOf e < sizeOf (listOf ds) := by
  cases ds with
  | nil => cases h
  | cons d rest =>
      rw [listOf, sizeOf_append]
      rcases List.mem_cons.mp h with rfl | h
      · omega
      · have := sizeOf_lt_repeated (List.mem_map_of_mem (f := behindComma) h)
        rw [behindComma, sizeOf_append] at this
        omega

theorem follows_typ : d.Follows .typ ↔ ∃ typ, d = typeDerivation typ ∧ ∀ x ∈ typ, IsName x := by
  constructor
  · intro h
    rw [Phrase.typ, follows_optional] at h
    obtain rfl | ⟨e, rfl, h⟩ := h
    · exact ⟨none, rfl, by simp⟩
    · simp only [follows_append, follows_mark, follows_identifier] at h
      obtain ⟨_, _, rfl, rfl, x, rfl, hx⟩ := h
      exact ⟨some x, rfl, by simpa using hx⟩
  · rintro ⟨typ, rfl, h⟩
    exact typeDerivation_follows.mpr h

/-- A number or a string is the token of a literal. -/
theorem exists_lexeme (kind : LiteralKind) {l : Lexeme} (hl : l.IsToken)
    (hkind : Parser.literalKind? l.kind = some kind) (typ : Option String) :
    ∃ value, Literal.lexeme ⟨kind, value, typ⟩ = l :=
  ⟨Parser.literalValue ⟨l.kind, l.text, 0⟩,
    Parser.lexeme_of_literalKind? (t := ⟨l.kind, l.text, 0⟩) hl hkind typ⟩

theorem literal_mem_ofTrees (h : d.Follows (.rule .literal)) :
    d ∈ Nonterminal.ofTrees .literal := by
  simp only [follows_rule, Nonterminal.phrase, follows_append, follows_oneOf, follows_typ] at h
  obtain ⟨_, rfl, _, _, rfl, ⟨i, e, p, rfl, hp, he⟩, typ, rfl, -⟩ := h
  match i, hp with
  | 0, rfl =>
      obtain ⟨l, rfl, hkind, hl⟩ := follows_token.mp he
      obtain ⟨value, rfl⟩ := exists_lexeme .number hl (by rw [hkind]; rfl) typ
      exact ⟨⟨.number, value, typ⟩, rfl⟩
  | 1, rfl =>
      obtain ⟨l, rfl, hkind, hl⟩ := follows_token.mp he
      obtain ⟨value, rfl⟩ := exists_lexeme .string hl (by rw [hkind]; rfl) typ
      exact ⟨⟨.string, value, typ⟩, rfl⟩
  | 2, rfl =>
      rw [follows_keyword.mp he]
      exact ⟨⟨.boolean, "true", typ⟩, rfl⟩
  | 3, rfl =>
      rw [follows_keyword.mp he]
      exact ⟨⟨.boolean, "false", typ⟩, rfl⟩

theorem exists_typedNames (h : d.Follows (.rule .typedNames)) :
    ∃ v vs, d = TypedName.listDerivation (List.map TypedName.derivation (v :: vs)) := by
  simp only [follows_rule, Nonterminal.phrase, follows_listOf] at h
  obtain ⟨_, rfl, ds, hne, rfl, hds⟩ := h
  have hnames : ds ∈ Set.range (List.map TypedName.derivation) := by
    rw [Set.range_list_map]
    intro d hd
    have hd := hds d hd
    simp only [follows_append, follows_identifier, follows_typ] at hd
    obtain ⟨_, _, rfl, ⟨x, rfl, -⟩, typ, rfl, -⟩ := hd
    exact ⟨⟨x, typ⟩, rfl⟩
  obtain ⟨_ | ⟨v, vs⟩, rfl⟩ := hnames
  · exact absurd rfl hne
  · exact ⟨v, vs, rfl⟩

theorem exists_params (h : d.Follows (.optional (.rule .typedNames))) :
    ∃ vs : List TypedName,
      d = optionalList TypedName.listDerivation (vs.map TypedName.derivation) := by
  obtain rfl | ⟨e, rfl, he⟩ := follows_optional.mp h
  · exact ⟨[], rfl⟩
  · obtain ⟨v, vs, rfl⟩ := exists_typedNames he
    exact ⟨v :: vs, rfl⟩

theorem exists_returns (h : d.Follows (.optional (.mark .arrow ++ .rule .typedNames))) :
    ∃ vs : List TypedName, d = returnsDerivation (vs.map TypedName.derivation) := by
  simp only [follows_optional, follows_append, follows_mark] at h
  obtain rfl | ⟨_, rfl, _, e, rfl, rfl, he⟩ := h
  · exact ⟨[], rfl⟩
  · obtain ⟨v, vs, rfl⟩ := exists_typedNames he
    exact ⟨v :: vs, rfl⟩

theorem valued_append (cs : List (Literal × Block)) (last : List Case) :
    Case.valued (cs.map (fun c => ⟨some c.1, c.2⟩) ++ last) =
      cs.map (fun c => .keyword .caseK ++ c.1.derivation ++ c.2.derivation)
        ++ Case.valued last := by
  induction cs with
  | nil => rfl
  | cons c rest ih => rw [List.map_cons, List.cons_append, Case.valued, ih]; rfl

theorem default_append (cs : List (Literal × Block)) (last : List Case) :
    Case.default (cs.map (fun c => ⟨some c.1, c.2⟩) ++ last) = Case.default last := by
  induction cs with
  | nil => rfl
  | cons c rest ih => rw [List.map_cons, List.cons_append, Case.default, ih]

/-! What is inside a derivation is smaller than the derivation, so it may be taken to be read
off a tree already. -/

section

variable (ih : ∀ e : Derivation, sizeOf e < sizeOf d → ∀ n, e.Follows (.rule n) → e ∈ n.ofTrees)

include ih

theorem args_mem_ofTrees (h : d.Follows (.rule .args)) : d ∈ Nonterminal.ofTrees .args := by
  obtain ⟨_, rfl, hlist⟩ := follows_rule.mp h
  obtain ⟨ds, -, rfl, hds⟩ := follows_listOf.mp hlist
  have hexprs : ds ∈ Set.range (List.map Expr.derivation) := by
    rw [Set.range_list_map]
    intro d hd
    have hsize := sizeOf_lt_listOf hd
    exact ih d (by rw [rule.sizeOf_spec]; omega) .expression (hds d hd)
  obtain ⟨es, rfl⟩ := hexprs
  exact ⟨es, rfl⟩

theorem exists_call (h : d.Follows .call) : ∃ f args, d = Expr.inner (.call f args) := by
  simp only [Phrase.call, follows_append, follows_identifier, follows_mark, follows_optional] at h
  obtain ⟨_, _, rfl, ⟨_, _, rfl, ⟨_, _, rfl, ⟨f, rfl, -⟩, rfl⟩, hargs⟩, rfl⟩ := h
  obtain rfl | ⟨d, rfl, hargs⟩ := hargs
  · exact ⟨f, [], rfl⟩
  · obtain ⟨args, rfl⟩ := ih d (by simp +arith) .args hargs
    obtain ⟨hne, -⟩ := listOf_follows.mp (rule_follows.mp hargs).2
    obtain ⟨e, rest, rfl⟩ := List.exists_cons_of_ne_nil (mt (congrArg (List.map _)) hne)
    exact ⟨f, e :: rest, by rw [Expr.inner, Expr.derivations_eq_map]; rfl⟩

theorem expression_mem_ofTrees (h : d.Follows (.rule .expression)) :
    d ∈ Nonterminal.ofTrees .expression := by
  obtain ⟨_, rfl, hchoice⟩ := follows_rule.mp h
  obtain ⟨i, d, p, rfl, hp, hd⟩ := follows_oneOf.mp hchoice
  match i, hp with
  | 0, rfl =>
      obtain ⟨l, rfl⟩ := literal_mem_ofTrees hd
      exact ⟨.literal l, rfl⟩
  | 1, rfl =>
      obtain ⟨x, rfl, -⟩ := follows_identifier.mp hd
      exact ⟨.variable x, rfl⟩
  | 2, rfl =>
      obtain ⟨f, args, rfl⟩ := exists_call (fun e he => ih e (he.trans (by simp +arith))) hd
      exact ⟨.call f args, rfl⟩

theorem block_mem_ofTrees (h : d.Follows (.rule .block)) : d ∈ Nonterminal.ofTrees .block := by
  obtain ⟨_, rfl, hbraced⟩ := follows_rule.mp h
  simp only [Nonterminal.phrase, follows_append, follows_mark, follows_repeated] at hbraced
  obtain ⟨_, _, rfl, ⟨_, _, rfl, rfl, ds, rfl, hds⟩, rfl⟩ := hbraced
  have hstatements : ds ∈ Set.range (List.map Stmt.derivation) := by
    rw [Set.range_list_map]
    intro d hd
    have hsize := sizeOf_lt_repeated hd
    exact ih d (by simp; omega) .statement (hds d hd)
  obtain ⟨b, rfl⟩ := hstatements
  exact ⟨b, by rw [Block.derivation, Block.derivations_eq_map]; rfl⟩

theorem exists_cases (h : d.Follows .cases) :
    ∃ cases, d = .repeated (Case.valued cases) ++ Case.default cases := by
  simp only [Phrase.cases, follows_append, follows_repeated, follows_optional,
    follows_keyword] at h
  obtain ⟨_, last, rfl, ⟨ds, rfl, hds⟩, hlast⟩ := h
  have hvalued : ds ∈ Set.range (List.map fun c : Literal × Block =>
      .keyword .caseK ++ c.1.derivation ++ c.2.derivation) := by
    rw [Set.range_list_map]
    intro d hd
    have hsize := sizeOf_lt_repeated hd
    obtain ⟨_, body, rfl, ⟨_, value, rfl, rfl, hvalue⟩, hbody⟩ := hds d hd
    obtain ⟨l, rfl⟩ := literal_mem_ofTrees hvalue
    obtain ⟨b, rfl⟩ := ih body (by simp at hsize ⊢; omega) .block hbody
    exact ⟨(l, b), rfl⟩
  obtain ⟨cs, rfl⟩ := hvalued
  obtain rfl | ⟨_, rfl, _, body, rfl, rfl, hbody⟩ := hlast
  · refine ⟨cs.map (fun c => ⟨some c.1, c.2⟩) ++ [], ?_⟩
    rw [valued_append, default_append, Case.valued, List.append_nil, Case.default]
  · obtain ⟨b, rfl⟩ := ih body (by simp +arith) .block hbody
    refine ⟨cs.map (fun c => ⟨some c.1, c.2⟩) ++ [⟨none, b⟩], ?_⟩
    rw [valued_append, default_append, Case.valued, List.append_nil, Case.default]
    rfl

theorem exists_define (h : d.Follows (.keyword .functionK ++ .identifier ++ .mark .openParen
      ++ .optional (.rule .typedNames) ++ .mark .closeParen
      ++ .optional (.mark .arrow ++ .rule .typedNames) ++ .rule .block)) :
    ∃ f params returns body,
      Stmt.derivation (.define f params returns body) = .rule .statement (.choice 2 d) := by
  simp only [follows_append, follows_keyword, follows_mark, follows_identifier] at h
  obtain ⟨_, body, rfl, ⟨_, returns, rfl, ⟨_, _, rfl, ⟨_, params, rfl, ⟨_, _, rfl, ⟨_, _, rfl, rfl,
    f, rfl, -⟩, rfl⟩, hparams⟩, rfl⟩, hreturns⟩, hbody⟩ := h
  obtain ⟨ps, rfl⟩ := exists_params hparams
  obtain ⟨rs, rfl⟩ := exists_returns hreturns
  obtain ⟨b, rfl⟩ := ih body (by simp +arith) .block hbody
  exact ⟨f, ps, rs, b, rfl⟩

theorem statement_mem_ofTrees (h : d.Follows (.rule .statement)) :
    d ∈ Nonterminal.ofTrees .statement := by
  obtain ⟨_, rfl, hchoice⟩ := follows_rule.mp h
  obtain ⟨i, d, p, rfl, hp, hd⟩ := follows_oneOf.mp hchoice
  match i, hp with
  | 0, rfl =>
      obtain ⟨body, rfl⟩ := ih d (by simp +arith) .block hd
      exact ⟨.block body, rfl⟩
  | 1, rfl =>
      simp only [follows_append, follows_keyword, follows_optional, follows_mark] at hd
      obtain ⟨_, _, rfl, ⟨_, names, rfl, rfl, hnames⟩, hvalue⟩ := hd
      obtain ⟨v, vars, rfl⟩ := exists_typedNames hnames
      obtain rfl | ⟨_, rfl, _, value, rfl, rfl, hvalue⟩ := hvalue
      · exact ⟨.declare (v :: vars) none, rfl⟩
      · obtain ⟨e, rfl⟩ := ih value (by simp +arith) .expression hvalue
        exact ⟨.declare (v :: vars) (some e), rfl⟩
  | 2, rfl =>
      obtain ⟨f, params, returns, body, heq⟩ :=
        exists_define (fun e he => ih e (he.trans (by simp +arith))) hd
      exact ⟨.define f params returns body, heq⟩
  | 3, rfl =>
      simp only [follows_append, follows_keyword] at hd
      obtain ⟨_, block, rfl, ⟨_, condition, rfl, rfl, hcondition⟩, hblock⟩ := hd
      obtain ⟨e, rfl⟩ := ih condition (by simp +arith) .expression hcondition
      obtain ⟨body, rfl⟩ := ih block (by simp +arith) .block hblock
      exact ⟨.branch e body, rfl⟩
  | 4, rfl =>
      simp only [follows_append, follows_keyword, follows_nonempty] at hd
      obtain ⟨_, _, rfl, ⟨_, scrutinee, rfl, rfl, hscrutinee⟩, cases, rfl, hcases, -⟩ := hd
      obtain ⟨e, rfl⟩ := ih scrutinee (by simp +arith) .expression hscrutinee
      obtain ⟨cases, rfl⟩ := exists_cases (fun e he => ih e (he.trans (by simp +arith))) hcases
      exact ⟨.switch e cases, rfl⟩
  | 5, rfl =>
      simp only [follows_append, follows_keyword] at hd
      obtain ⟨_, body, rfl, ⟨_, post, rfl, ⟨_, condition, rfl, ⟨_, pre, rfl, rfl, hpre⟩,
        hcondition⟩, hpost⟩, hbody⟩ := hd
      obtain ⟨pre, rfl⟩ := ih pre (by simp +arith) .block hpre
      obtain ⟨e, rfl⟩ := ih condition (by simp +arith) .expression hcondition
      obtain ⟨post, rfl⟩ := ih post (by simp +arith) .block hpost
      obtain ⟨body, rfl⟩ := ih body (by simp +arith) .block hbody
      exact ⟨.loop pre e post body, rfl⟩
  | 6, rfl =>
      rw [follows_keyword.mp hd]
      exact ⟨.break, rfl⟩
  | 7, rfl =>
      rw [follows_keyword.mp hd]
      exact ⟨.continue, rfl⟩
  | 8, rfl =>
      rw [follows_keyword.mp hd]
      exact ⟨.leave, rfl⟩
  | 9, rfl =>
      simp only [follows_append, follows_mark, follows_listOf, follows_identifier] at hd
      obtain ⟨_, value, rfl, ⟨_, _, rfl, ⟨ds, -, rfl, hds⟩, rfl⟩, hvalue⟩ := hd
      have htargets : ds ∈ Set.range (List.map name) := by
        rw [Set.range_list_map]
        intro d hd
        obtain ⟨x, rfl, -⟩ := hds d hd
        exact ⟨x, rfl⟩
      obtain ⟨targets, rfl⟩ := htargets
      obtain ⟨e, rfl⟩ := ih value (by simp +arith) .expression hvalue
      exact ⟨.assign targets e, rfl⟩
  | 10, rfl =>
      obtain ⟨f, args, rfl⟩ := exists_call (fun e he => ih e (he.trans (by simp +arith))) hd
      exact ⟨.expr (.call f args), rfl⟩

end

/-- Every derivation is read off a tree. -/
theorem mem_ofTrees (d : Derivation) : ∀ n, d.Follows (.rule n) → d ∈ n.ofTrees
  | .block, h => block_mem_ofTrees (fun e _ => mem_ofTrees e) h
  | .statement, h => statement_mem_ofTrees (fun e _ => mem_ofTrees e) h
  | .typedNames, h =>
      let ⟨v, vs, hd⟩ := exists_typedNames h
      ⟨v :: vs, hd.symm⟩
  | .expression, h => expression_mem_ofTrees (fun e _ => mem_ofTrees e) h
  | .args, h => args_mem_ofTrees (fun e _ => mem_ofTrees e) h
  | .literal, h => literal_mem_ofTrees h
termination_by sizeOf d

end Derivation

/-- Tokens that have a derivation from the rule for blocks. -/
def Sentence (ls : List Lexeme) : Prop :=
  ∃ d : Derivation, d.Derives .block ls

end Grammar

/-! ## One derivation for each sentence -/

/-- A tree has a derivation of some tokens if it can be printed and these are its tokens. -/
theorem Block.derives_iff {b : Block} {ls : List Lexeme} :
    b.derivation.Derives .block ls ↔ b.Printable ∧ b.lexemes = ls := by
  constructor
  · rintro ⟨hfollows, rfl⟩
    have hb := Block.derivation_follows.mp hfollows
    exact ⟨hb, (Block.lexemes_derivation hb.formed).symm⟩
  · rintro ⟨hb, rfl⟩
    exact ⟨Block.derivation_follows.mpr hb, Block.lexemes_derivation hb.formed⟩

theorem Grammar.Derivation.Derives.exists_block {d : Derivation} {ls : List Lexeme}
    (h : d.Derives .block ls) : ∃ b : Block, b.derivation = d ∧ b.Printable ∧ b.lexemes = ls := by
  obtain ⟨b, rfl⟩ := d.mem_ofTrees .block h.follows
  exact ⟨b, rfl, Block.derives_iff.mp h⟩

/-- Tokens that start with the tokens of a program are read as this program, up to where these
end. -/
theorem Parser.block_of_reads {b : Block} (hb : Block.Each Stmt.Formed b) {ts rest : List Token}
    (h : Reads ts b.lexemes rest) : Parser.block ts.length ts = .ok (b, rest) := by
  have hlength : b.lexemes.length ≤ ts.length := by
    obtain ⟨front, rfl, hfront⟩ := h
    simp [← hfront]
  exact (Parser.block_readsBack hb (Parser.stmts_readBack b hb) hlength).eq_ok h

/-- No program has tokens that start the tokens of another program. -/
theorem Block.eq_of_lexemes_append {b c : Block} (hb : Block.Each Stmt.Formed b)
    (hc : Block.Each Stmt.Formed c) {ls : List Lexeme} (h : b.lexemes ++ ls = c.lexemes) :
    b = c ∧ ls = [] := by
  obtain ⟨ts, hts⟩ : ∃ ts : List Token, ts.map Token.lexeme = c.lexemes := by
    refine ⟨c.lexemes.map fun l => ⟨l.kind, l.text, 0⟩, ?_⟩
    simp [Function.comp_def, Token.lexeme]
  have hwhole : Reads ts c.lexemes [] := ⟨ts, (List.append_nil ts).symm, hts⟩
  obtain ⟨rest, hfront, hbehind⟩ := reads_append.mp (h ▸ hwhole)
  have hread := (Parser.block_of_reads hb hfront).symm.trans (Parser.block_of_reads hc hwhole)
  obtain ⟨rfl, rfl⟩ := Prod.mk.inj (Except.ok.inj hread)
  obtain ⟨front, hnil, rfl⟩ := hbehind
  obtain rfl : front = [] := by simpa using hnil.symm
  exact ⟨rfl, rfl⟩

namespace Grammar

/-- A sentence that starts a sentence is all of it, and it has one derivation. -/
theorem Derivation.Derives.eq_of_append {d e : Derivation} {ls ms : List Lexeme}
    (hd : d.Derives .block ls) (he : e.Derives .block (ls ++ ms)) : d = e ∧ ms = [] := by
  obtain ⟨b, rfl, hb, rfl⟩ := hd.exists_block
  obtain ⟨c, rfl, hc, hlexemes⟩ := he.exists_block
  obtain ⟨rfl, hms⟩ := Block.eq_of_lexemes_append hb.formed hc.formed hlexemes.symm
  exact ⟨rfl, hms⟩

theorem Derivation.Derives.unique {d e : Derivation} {ls : List Lexeme}
    (hd : d.Derives .block ls) (he : e.Derives .block ls) : d = e :=
  (hd.eq_of_append (by rwa [List.append_nil])).1

theorem Sentence.eq_of_isPrefix {ls ms : List Lexeme} (hls : Sentence ls) (hms : Sentence ms)
    (h : ls <+: ms) : ls = ms := by
  obtain ⟨d, hd⟩ := hls
  obtain ⟨rest, rfl⟩ := h
  obtain ⟨e, he⟩ := hms
  rw [(hd.eq_of_append he).2, List.append_nil]

end Grammar

/-! ## The texts that the parser accepts -/

/-- A tree is read from a text just if its derivation derives the tokens of the text. -/
theorem Block.parse_eq_ok_iff_derives {code : String} {b : Block} :
    Block.parse code = .ok b ↔
      ∃ ts, lex code = .ok ts ∧ b.derivation.Derives .block (ts.map Token.lexeme) := by
  rw [Block.parse_eq_ok_iff]
  constructor
  · rintro ⟨htokenizes, hb⟩
    obtain ⟨ts, hlex, hlexemes⟩ := htokenizes.exists_lexFrom 0
    exact ⟨ts, hlex, Block.derives_iff.mpr ⟨hb, hlexemes.symm⟩⟩
  · rintro ⟨ts, hlex, hderives⟩
    obtain ⟨hb, hlexemes⟩ := Block.derives_iff.mp hderives
    exact ⟨hlexemes ▸ Tokenizes.of_lexFrom hlex, hb⟩

/-- A text is accepted if its tokens are a sentence. -/
theorem Block.exists_parse_eq_ok_iff {code : String} {ts : List Token} (hlex : lex code = .ok ts) :
    (∃ b, Block.parse code = .ok b) ↔ Sentence (ts.map Token.lexeme) := by
  constructor
  · rintro ⟨b, hb⟩
    obtain ⟨us, hus, hderives⟩ := Block.parse_eq_ok_iff_derives.mp hb
    obtain rfl : ts = us := Except.ok.inj (hlex.symm.trans hus)
    exact ⟨_, hderives⟩
  · rintro ⟨d, hd⟩
    obtain ⟨b, rfl, -⟩ := hd.exists_block
    exact ⟨b, Block.parse_eq_ok_iff_derives.mpr ⟨ts, hlex, hd⟩⟩

/-- The parser accepts the sentences of the grammar and nothing else.  A text is read as a tree
just if it has tokens, these have one derivation from the rule for blocks, and the tree is the
tree of this derivation.  There is a text for every sentence, every text of a sentence is
accepted, and no text is accepted whose tokens are others and start a sentence or start with
one. -/
theorem Block.parse_accepts_sentences :
    (∀ code b, Block.parse code = .ok b ↔
      ∃ ts d, lex code = .ok ts ∧ d.Derives .block (ts.map Token.lexeme) ∧
        (∀ e : Derivation, e.Derives .block (ts.map Token.lexeme) → e = d) ∧
        b.derivation = d) ∧
    ∀ ls, Sentence ls →
      (∃ code ts, lex code = .ok ts ∧ ts.map Token.lexeme = ls) ∧
      ∀ code ts, lex code = .ok ts →
        (ts.map Token.lexeme = ls → ∃ b, Block.parse code = .ok b) ∧
        (ts.map Token.lexeme ≠ ls → ts.map Token.lexeme <+: ls ∨ ls <+: ts.map Token.lexeme →
          ∀ b, Block.parse code ≠ .ok b) := by
  refine ⟨fun code b => ?_, fun ls hls => ⟨?_, fun code ts hlex => ⟨?_, ?_⟩⟩⟩
  · rw [Block.parse_eq_ok_iff_derives]
    constructor
    · rintro ⟨ts, hlex, hderives⟩
      exact ⟨ts, b.derivation, hlex, hderives, fun e he => he.unique hderives, rfl⟩
    · rintro ⟨ts, _, hlex, hderives, -, rfl⟩
      exact ⟨ts, hlex, hderives⟩
  · obtain ⟨d, hd⟩ := hls
    obtain ⟨b, -, hb, rfl⟩ := hd.exists_block
    obtain ⟨ts, hlex, hlexemes⟩ := hb.tokenizes.1.exists_lexFrom 0
    exact ⟨b.text, ts, hlex, hlexemes⟩
  · rintro rfl
    exact (Block.exists_parse_eq_ok_iff hlex).mpr hls
  · intro hne hprefix b hb
    have hts := (Block.exists_parse_eq_ok_iff hlex).mp ⟨b, hb⟩
    rcases hprefix with h | h
    · exact hne (hts.eq_of_isPrefix hls h)
    · exact hne (hls.eq_of_isPrefix hts h).symm

/-- The text of a block with one call in it. -/
def oneCallText : String :=
  "\x7b f(1, x) \x7d"

/-- The program of this text. -/
def oneCall : Block :=
  [.expr (.call "f" [.number "1", .variable "x"])]

/-- The tokens of the text in front of the last one. -/
def openCallTokens : List Token :=
  [⟨.mark .openBrace, "\x7b", 0⟩, ⟨.identifier, "f", 2⟩, ⟨.mark .openParen, "(", 3⟩,
    ⟨.number, "1", 4⟩, ⟨.mark .comma, ",", 5⟩, ⟨.identifier, "x", 7⟩, ⟨.mark .closeParen, ")", 8⟩]

/-- The program is read from the text, and neither from the text without its last token nor from
the text with another block behind it. -/
theorem oneCallText_parse :
    (∃ ts d, lex oneCallText = .ok ts ∧ d.Derives .block (ts.map Token.lexeme) ∧
      (∀ e : Derivation, e.Derives .block (ts.map Token.lexeme) → e = d) ∧
      oneCall.derivation = d) ∧
    (∀ b, Block.parse "\x7b f(1, x)" ≠ .ok b) ∧
    ∀ b, Block.parse "\x7b f(1, x) \x7d\x7b\x7d" ≠ .ok b := by
  have hparse : Block.parse oneCallText = .ok oneCall := by decide +kernel
  have hsentence : Sentence oneCall.lexemes :=
    ⟨oneCall.derivation, Block.derives_iff.mpr ⟨Block.printable_of_parse hparse, rfl⟩⟩
  have hshort : lex "\x7b f(1, x)" = .ok openCallTokens := by decide +kernel
  have hlong : lex "\x7b f(1, x) \x7d\x7b\x7d" = .ok (openCallTokens ++
      [⟨.mark .closeBrace, "\x7d", 10⟩, ⟨.mark .openBrace, "\x7b", 11⟩,
        ⟨.mark .closeBrace, "\x7d", 12⟩]) := by decide +kernel
  have hothers := (Block.parse_accepts_sentences.2 oneCall.lexemes hsentence).2
  exact ⟨(Block.parse_accepts_sentences.1 _ _).mp hparse,
    (hothers _ _ hshort).2 (by decide) (.inl (by decide)),
    (hothers _ _ hlong).2 (by decide) (.inr (by decide))⟩

end SwitchHoist
