import Mathlib.Data.Set.List
import SwitchHoist.Proofs.PrintableTrees

/-!
# The grammar of programs

The rules are

    block      := '{' statement* '}'
    statement  := block
                | 'let' typed_names (':=' expression)?
                | 'function' ID '(' typed_names? ')' ('->' typed_names)? block
                | 'if' expression block
                | 'switch' expression ('case' literal block)* ('default' block)?
                | 'for' block expression block block
                | 'break' | 'continue' | 'leave'
                | ID (',' ID)* ':=' expression
                | ID '(' args? ')'
    typed_names:= ID (':' ID)? (',' ID (':' ID)?)*
    expression := literal | ID | ID '(' args? ')'
    args       := expression (',' expression)*
    literal    := (NUMBER | STRING | 'true' | 'false') (':' ID)?

and a switch has at least one case or a default.  They are data here.  A derivation is a tree
that says, from the top to the tokens, which alternative is taken at every choice, whether an
optional part is there and how often a part is repeated.
-/

namespace SwitchHoist

theorem Mark.isToken (m : Mark) : (Lexeme.mark m).IsToken := by
  cases m <;> decide

theorem Lexeme.IsToken.eq_mark {l : Lexeme} (h : l.IsToken) {m : Mark} (hkind : l.kind = .mark m) :
    l = .mark m := by
  obtain ⟨kind, text⟩ := l
  obtain rfl : kind = .mark m := hkind
  exact congrArg (Lexeme.mk _) (String.toList_inj.mp h.matches)

theorem Lexeme.IsToken.eq_keyword {l : Lexeme} (h : l.IsToken) {k : Keyword}
    (hkind : l.kind = .keyword k) : l = .keyword k := by
  obtain ⟨kind, text⟩ := l
  obtain rfl : kind = .keyword k := hkind
  exact congrArg (Lexeme.mk _) (String.toList_inj.mp h.matches)

namespace Grammar

/-- The left sides of the rules. -/
inductive Nonterminal where
  | block
  | statement
  | typedNames
  | expression
  | args
  | literal
  deriving DecidableEq, Repr

/-- The right sides of rules, and their parts. -/
inductive Phrase where
  | token (kind : Token.Kind)
  | rule (n : Nonterminal)
  | seq (p q : Phrase)
  | oneOf (alternatives : List Phrase)
  | optional (p : Phrase)
  | repeated (p : Phrase)
  /-- The phrase inside, but at least one token of it. -/
  | nonempty (p : Phrase)

namespace Phrase

instance : Append Phrase := ⟨seq⟩

/-- A punctuation mark. -/
def mark (m : Mark) : Phrase :=
  token (.mark m)

/-- A keyword. -/
def keyword (k : Keyword) : Phrase :=
  token (.keyword k)

/-- An `ID`. -/
def identifier : Phrase :=
  token .identifier

/-- One item or more with commas between them. -/
def listOf (p : Phrase) : Phrase :=
  p ++ repeated (mark .comma ++ p)

/-- The type of a name or a literal, which may be missing. -/
def typ : Phrase :=
  optional (mark .colon ++ identifier)

/-- A call of a function. -/
def call : Phrase :=
  identifier ++ mark .openParen ++ optional (rule .args) ++ mark .closeParen

/-- The cases of a switch. -/
def cases : Phrase :=
  repeated (keyword .caseK ++ rule .literal ++ rule .block)
    ++ optional (keyword .defaultK ++ rule .block)

end Phrase

open Phrase

/-- The right side of the rule for a nonterminal. -/
def Nonterminal.phrase : Nonterminal → Phrase
  | block => mark .openBrace ++ repeated (rule statement) ++ mark .closeBrace
  | statement => oneOf
      [rule block,
        keyword .letK ++ rule typedNames ++ optional (mark .gets ++ rule expression),
        keyword .functionK ++ identifier ++ mark .openParen ++ optional (rule typedNames)
          ++ mark .closeParen ++ optional (mark .arrow ++ rule typedNames) ++ rule block,
        keyword .ifK ++ rule expression ++ rule block,
        keyword .switchK ++ rule expression ++ nonempty cases,
        keyword .forK ++ rule block ++ rule expression ++ rule block ++ rule block,
        keyword .breakK,
        keyword .continueK,
        keyword .leaveK,
        listOf identifier ++ mark .gets ++ rule expression,
        call]
  | typedNames => listOf (identifier ++ typ)
  | expression => oneOf [rule literal, identifier, call]
  | args => listOf (rule expression)
  | literal => oneOf [token .number, token .string, keyword .trueK, keyword .falseK] ++ typ

/-- A derivation, with one node for each part of a phrase. -/
inductive Derivation where
  | token (l : Lexeme)
  | rule (n : Nonterminal) (d : Derivation)
  | seq (d e : Derivation)
  /-- The alternative with this number, counted from zero. -/
  | choice (index : Nat) (d : Derivation)
  | absent
  | present (d : Derivation)
  | stop
  | again (d e : Derivation)
  | nonempty (d : Derivation)
  deriving DecidableEq, Repr

namespace Derivation

instance : Append Derivation := ⟨seq⟩

/-- The tokens at the leaves of a derivation. -/
@[simp] def lexemes : Derivation → List Lexeme
  | token l => [l]
  | rule _ d => d.lexemes
  | seq d e => d.lexemes ++ e.lexemes
  | choice _ d => d.lexemes
  | absent => []
  | present d => d.lexemes
  | stop => []
  | again d e => d.lexemes ++ e.lexemes
  | nonempty d => d.lexemes

/-- The derivations from a phrase.  A kind of token stands for all tokens of this kind. -/
inductive Follows : Derivation → Phrase → Prop where
  | token {l : Lexeme} (h : l.IsToken) : Follows (token l) (.token l.kind)
  | rule {n : Nonterminal} {d : Derivation} (h : Follows d n.phrase) : Follows (rule n d) (.rule n)
  | seq {d e : Derivation} {p q : Phrase} (hd : Follows d p) (he : Follows e q) :
      Follows (seq d e) (.seq p q)
  | choice {i : Nat} {d : Derivation} {p : Phrase} {ps : List Phrase} (hp : ps[i]? = some p)
      (hd : Follows d p) : Follows (choice i d) (.oneOf ps)
  | absent {p : Phrase} : Follows absent (.optional p)
  | present {d : Derivation} {p : Phrase} (h : Follows d p) : Follows (present d) (.optional p)
  | stop {p : Phrase} : Follows stop (.repeated p)
  | again {d e : Derivation} {p : Phrase} (hd : Follows d p) (he : Follows e (.repeated p)) :
      Follows (again d e) (.repeated p)
  | nonempty {d : Derivation} {p : Phrase} (h : Follows d p) (hne : d.lexemes ≠ []) :
      Follows (nonempty d) (.nonempty p)

/-- A derivation of some tokens from a nonterminal. -/
structure Derives (d : Derivation) (n : Nonterminal) (ls : List Lexeme) : Prop where
  follows : d.Follows (.rule n)
  lexemes_eq : d.lexemes = ls

/-- The derivation of a punctuation mark. -/
def mark (m : Mark) : Derivation :=
  token (.mark m)

/-- The derivation of a keyword. -/
def keyword (k : Keyword) : Derivation :=
  token (.keyword k)

/-- The derivation of a name. -/
def name (x : String) : Derivation :=
  token (.name x)

/-- A part that is repeated as often as there are derivations of it. -/
def repeated : List Derivation → Derivation
  | [] => stop
  | d :: rest => again d (repeated rest)

/-- A comma in front of an item. -/
def behindComma (d : Derivation) : Derivation :=
  mark .comma ++ d

/-- Items with commas between them.  No item at all is derived from nothing. -/
def listOf : List Derivation → Derivation
  | [] => stop
  | d :: rest => d ++ repeated (rest.map behindComma)

/-- A part that is there, unless the list that it is made of is empty. -/
def optionalList (f : List Derivation → Derivation) : List Derivation → Derivation
  | [] => absent
  | ds => present (f ds)

/-! ## What derivations look like -/

variable {d e : Derivation} {p q : Phrase}

@[simp] theorem lexemes_append (d e : Derivation) : (d ++ e).lexemes = d.lexemes ++ e.lexemes :=
  rfl

@[simp] theorem lexemes_mark (m : Mark) : (mark m).lexemes = [.mark m] :=
  rfl

@[simp] theorem lexemes_keyword (k : Keyword) : (keyword k).lexemes = [.keyword k] :=
  rfl

@[simp] theorem lexemes_name (x : String) : (name x).lexemes = [.name x] :=
  rfl

@[simp] theorem lexemes_repeated (ds : List Derivation) :
    (repeated ds).lexemes = ds.flatMap lexemes := by
  induction ds with
  | nil => rfl
  | cons d rest ih => rw [repeated, lexemes, ih, List.flatMap_cons]

@[simp] theorem token_follows {l : Lexeme} {kind : Token.Kind} :
    (token l).Follows (.token kind) ↔ l.kind = kind ∧ l.IsToken := by
  constructor
  · rintro ⟨⟩
    exact ⟨rfl, ‹_›⟩
  · rintro ⟨rfl, h⟩
    exact .token h

@[simp] theorem mark_follows (m : Mark) : (mark m).Follows (.mark m) :=
  .token m.isToken

@[simp] theorem keyword_follows (k : Keyword) : (keyword k).Follows (.keyword k) :=
  .token k.isToken

@[simp] theorem name_follows {x : String} : (name x).Follows .identifier ↔ IsName x :=
  token_follows.trans (and_iff_right rfl)

@[simp] theorem rule_follows {m n : Nonterminal} :
    (rule m d).Follows (.rule n) ↔ m = n ∧ d.Follows m.phrase := by
  constructor
  · rintro ⟨⟩
    exact ⟨rfl, ‹_›⟩
  · rintro ⟨rfl, h⟩
    exact .rule h

@[simp] theorem append_follows :
    (d ++ e).Follows (p ++ q) ↔ d.Follows p ∧ e.Follows q :=
  ⟨fun | .seq hd he => ⟨hd, he⟩, fun h => .seq h.1 h.2⟩

@[simp] theorem choice_follows {i : Nat} {ps : List Phrase} :
    (choice i d).Follows (.oneOf ps) ↔ ∃ p, ps[i]? = some p ∧ d.Follows p :=
  ⟨fun | .choice hp hd => ⟨_, hp, hd⟩, fun ⟨_, hp, hd⟩ => .choice hp hd⟩

@[simp] theorem absent_follows : absent.Follows (.optional p) :=
  .absent

@[simp] theorem present_follows : (present d).Follows (.optional p) ↔ d.Follows p :=
  ⟨fun | .present h => h, .present⟩

@[simp] theorem nonempty_follows :
    (nonempty d).Follows (.nonempty p) ↔ d.Follows p ∧ d.lexemes ≠ [] :=
  ⟨fun | .nonempty h hne => ⟨h, hne⟩, fun h => .nonempty h.1 h.2⟩

@[simp] theorem stop_follows : stop.Follows (.repeated p) :=
  .stop

@[simp] theorem again_follows :
    (again d e).Follows (.repeated p) ↔ d.Follows p ∧ e.Follows (.repeated p) :=
  ⟨fun | .again hd he => ⟨hd, he⟩, fun h => .again h.1 h.2⟩

@[simp] theorem repeated_follows {ds : List Derivation} :
    (repeated ds).Follows (.repeated p) ↔ ∀ d ∈ ds, d.Follows p := by
  induction ds with
  | nil => simp [repeated]
  | cons d rest ih => rw [repeated, again_follows, ih, List.forall_mem_cons]

@[simp] theorem behindComma_follows :
    d.behindComma.Follows (.mark .comma ++ p) ↔ d.Follows p := by
  simp [behindComma]

/-- A list of items has an item, and every item is derived from the phrase. -/
@[simp] theorem listOf_follows {ds : List Derivation} :
    (listOf ds).Follows (.listOf p) ↔ ds ≠ [] ∧ ∀ d ∈ ds, d.Follows p := by
  cases ds with
  | nil => exact iff_of_false (fun h => nomatch h) fun h => h.1 rfl
  | cons d rest => simp [listOf, Phrase.listOf]

theorem follows_token {kind : Token.Kind} :
    d.Follows (.token kind) ↔ ∃ l, d = token l ∧ l.kind = kind ∧ l.IsToken := by
  constructor
  · rintro ⟨⟩
    exact ⟨_, rfl, rfl, ‹_›⟩
  · rintro ⟨l, rfl, h⟩
    exact token_follows.mpr h

theorem follows_mark {m : Mark} : d.Follows (.mark m) ↔ d = mark m := by
  constructor
  · intro h
    obtain ⟨l, rfl, hkind, hl⟩ := follows_token.mp h
    rw [mark, hl.eq_mark hkind]
  · rintro rfl
    exact mark_follows m

theorem follows_keyword {k : Keyword} : d.Follows (.keyword k) ↔ d = keyword k := by
  constructor
  · intro h
    obtain ⟨l, rfl, hkind, hl⟩ := follows_token.mp h
    rw [keyword, hl.eq_keyword hkind]
  · rintro rfl
    exact keyword_follows k

theorem follows_identifier : d.Follows .identifier ↔ ∃ x, d = name x ∧ IsName x := by
  constructor
  · intro h
    obtain ⟨⟨kind, x⟩, rfl, hkind, hl⟩ := follows_token.mp h
    obtain rfl : kind = .identifier := hkind
    exact ⟨x, rfl, hl⟩
  · rintro ⟨x, rfl, hx⟩
    exact name_follows.mpr hx

theorem follows_rule {n : Nonterminal} :
    d.Follows (.rule n) ↔ ∃ e, d = rule n e ∧ e.Follows n.phrase := by
  constructor
  · rintro ⟨⟩
    exact ⟨_, rfl, ‹_›⟩
  · rintro ⟨e, rfl, h⟩
    exact .rule h

theorem follows_append :
    d.Follows (p ++ q) ↔ ∃ e f, d = e ++ f ∧ e.Follows p ∧ f.Follows q := by
  constructor
  · rintro ⟨⟩
    exact ⟨_, _, rfl, ‹_›, ‹_›⟩
  · rintro ⟨e, f, rfl, he, hf⟩
    exact .seq he hf

theorem follows_oneOf {ps : List Phrase} :
    d.Follows (.oneOf ps) ↔ ∃ i e p, d = choice i e ∧ ps[i]? = some p ∧ e.Follows p := by
  constructor
  · rintro ⟨⟩
    exact ⟨_, _, _, rfl, ‹_›, ‹_›⟩
  · rintro ⟨i, e, p, rfl, hp, he⟩
    exact .choice hp he

theorem follows_optional :
    d.Follows (.optional p) ↔ d = absent ∨ ∃ e, d = present e ∧ e.Follows p := by
  constructor
  · rintro ⟨⟩
    · exact .inl rfl
    · exact .inr ⟨_, rfl, ‹_›⟩
  · rintro (rfl | ⟨e, rfl, h⟩)
    · exact .absent
    · exact .present h

theorem follows_nonempty :
    d.Follows (.nonempty p) ↔ ∃ e, d = nonempty e ∧ e.Follows p ∧ e.lexemes ≠ [] := by
  constructor
  · rintro ⟨⟩
    exact ⟨_, rfl, ‹_›, ‹_›⟩
  · rintro ⟨e, rfl, h, hne⟩
    exact .nonempty h hne

theorem follows_repeated :
    d.Follows (.repeated p) ↔ ∃ ds, d = repeated ds ∧ ∀ e ∈ ds, e.Follows p := by
  constructor
  · intro h
    induction d with
    | stop => exact ⟨[], rfl, by simp⟩
    | again e rest _ ih =>
        obtain ⟨he, hrest⟩ := again_follows.mp h
        obtain ⟨ds, rfl, hds⟩ := ih hrest
        exact ⟨e :: ds, rfl, List.forall_mem_cons.mpr ⟨he, hds⟩⟩
    | _ => cases h
  · rintro ⟨ds, rfl, hds⟩
    exact repeated_follows.mpr hds

theorem follows_listOf :
    d.Follows (.listOf p) ↔
      ∃ ds, ds ≠ [] ∧ d = listOf ds ∧ ∀ e ∈ ds, e.Follows p := by
  constructor
  · intro h
    obtain ⟨e, f, rfl, he, hf⟩ := follows_append.mp h
    obtain ⟨fs, rfl, hfs⟩ := follows_repeated.mp hf
    -- Every repeated part is a comma and an item.
    have hitems : fs ∈ Set.range (List.map behindComma) := by
      rw [Set.range_list_map]
      intro g hg
      obtain ⟨c, i, rfl, hc, -⟩ := follows_append.mp (hfs g hg)
      exact ⟨i, by rw [follows_mark.mp hc, behindComma]⟩
    obtain ⟨ds, rfl⟩ := hitems
    have hds : ∀ d ∈ ds, d.Follows p := fun d hd =>
      behindComma_follows.mp (hfs _ (List.mem_map_of_mem hd))
    exact ⟨e :: ds, List.cons_ne_nil e ds, rfl, List.forall_mem_cons.mpr ⟨he, hds⟩⟩
  · rintro ⟨ds, hne, rfl, hds⟩
    exact listOf_follows.mpr ⟨hne, hds⟩

end Derivation

end Grammar

end SwitchHoist
