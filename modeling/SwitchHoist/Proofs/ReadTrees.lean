import SwitchHoist.Proofs.ParserSteps
import SwitchHoist.Proofs.PrintableTrees

/-!
# Trees are read back from their tokens

In front of the tokens of a tree the parser returns this tree and the tokens behind.  What
follows must not go on with the tree: an expression may be followed by any token but an
opening parenthesis and a colon, and a statement by any token that starts another statement
or closes the block.
-/

namespace SwitchHoist

namespace Parser

variable {α : Type} {ts rest : List Token} {ls : List Lexeme}

/-- A parser that returns a value in front of some lexemes, and takes just these, unless a token
of one of the given kinds follows. -/
def ReadsBack (p : Parser α) (x : α) (ls : List Lexeme) (stops : List Token.Kind) : Prop :=
  ∀ ts rest, Reads ts ls rest → NoneOf stops rest → p ts = .ok (x, rest)

theorem head_kind_of_reads {l : Lexeme} (h : Reads ts (l :: ls) rest) :
    ts.head?.map Token.kind = some l.kind := by
  obtain ⟨t, mid, rfl, rfl, -⟩ := reads_cons.mp h
  rfl

/-- A parser that looks at the next token first. -/
theorem bind_kind?_of_reads {β : Type} {f : Option Token.Kind → Parser β} {y : β}
    {behind : List Token} {l : Lexeme} (h : Reads ts (l :: ls) rest)
    (hf : f (some l.kind) ts = .ok (y, behind)) : (kind? >>= f) ts = .ok (y, behind) :=
  bind_eq_ok.mpr ⟨some l.kind, ts, kind?_eq_ok.mpr ⟨head_kind_of_reads h, rfl⟩, hf⟩

theorem accept?_of_reads {k : Token.Kind} {x : String} (h : Reads ts (⟨k, x⟩ :: ls) rest) :
    ∃ t mid, accept? k ts = .ok (some t, mid) ∧ t.text = x ∧ Reads mid ls rest := by
  obtain ⟨t, mid, rfl, ht, hmid⟩ := reads_cons.mp h
  obtain ⟨hkind, htext⟩ := Lexeme.mk.inj ht
  exact ⟨t, mid, accept?_eq_some.mpr ⟨rfl, hkind⟩, htext, hmid⟩

theorem mark_of_reads {m : Mark} (h : Reads ts (.mark m :: ls) rest) :
    ∃ mid, mark m ts = .ok ((), mid) ∧ Reads mid ls rest := by
  obtain ⟨t, mid, ht, -, hmid⟩ := accept?_of_reads h
  exact ⟨mid, mark_eq_ok.mpr ⟨t, accept?_eq_some.mp ht⟩, hmid⟩

theorem keyword_of_reads {k : Keyword} (h : Reads ts (.keyword k :: ls) rest) :
    ∃ mid, keyword k ts = .ok ((), mid) ∧ Reads mid ls rest := by
  obtain ⟨t, mid, ht, -, hmid⟩ := accept?_of_reads h
  exact ⟨mid, keyword_eq_ok.mpr ⟨t, accept?_eq_some.mp ht⟩, hmid⟩

/-- A value that stands for one keyword. -/
theorem keyword_pure_of_reads {k : Keyword} {x : α} (h : Reads ts [.keyword k] rest) :
    (do keyword k; pure x : Parser α) ts = .ok (x, rest) := by
  obtain ⟨mid, hkeyword, h⟩ := keyword_of_reads h
  obtain rfl := reads_nil.mp h
  exact bind_eq_ok.mpr ⟨(), mid, hkeyword, rfl⟩

theorem name_of_reads {x : String} (h : Reads ts (.name x :: ls) rest) :
    ∃ mid, name ts = .ok (x, mid) ∧ Reads mid ls rest := by
  obtain ⟨mid, hx, hmid⟩ := reads_append.mp (show Reads ts ([.name x] ++ ls) rest from h)
  exact ⟨mid, name_eq_ok.mpr hx, hmid⟩

theorem typ?_readsBack (typ : Option String) :
    ReadsBack typ? typ (typeLexemes typ) [.mark .colon] := by
  intro ts rest h hrest
  cases typ with
  | none =>
      obtain rfl := reads_nil.mp h
      exact bind_eq_ok.mpr ⟨none, ts, accept?_eq_none.mpr ⟨rfl, hrest⟩, rfl⟩
  | some x =>
      obtain ⟨t, mid, ht, -, h⟩ := accept?_of_reads h
      exact bind_eq_ok.mpr ⟨some t, mid, ht,
        bind_eq_ok.mpr ⟨x, rest, name_eq_ok.mpr h, rfl⟩⟩

theorem typedName_readsBack (v : TypedName) :
    ReadsBack typedName v v.lexemes [.mark .colon] := by
  intro ts rest h hrest
  obtain ⟨mid, hx, h⟩ := name_of_reads h
  exact bind_eq_ok.mpr ⟨v.name, mid, hx,
    bind_eq_ok.mpr ⟨v.typ, rest, typ?_readsBack _ _ _ h hrest, rfl⟩⟩

theorem literalKind?_lexeme (l : Literal) : literalKind? l.lexeme.kind = some l.kind := by
  obtain ⟨kind, value, typ⟩ := l
  cases kind with
  | boolean => by_cases h : value = "true" <;> simp [Literal.lexeme, literalKind?, h]
  | _ => rfl

theorem literalValue_of_lexeme {t : Token} {l : Literal} (h : t.lexeme = l.lexeme) :
    literalValue t = l.value := by
  obtain ⟨k, value, typ⟩ := l
  obtain ⟨hkind, htext⟩ := Lexeme.mk.inj h
  cases k with
  | string =>
      have htext : t.text = "\"" ++ value ++ "\"" := htext
      have hvalue : t.text.toList.tail.dropLast = value.toList := by simp [htext]
      rw [literalValue, show t.kind = .string from hkind]
      simp only [hvalue, String.ofList_toList]
  | _ =>
      rw [literalValue, hkind]
      exact htext

theorem literal_readsBack (l : Literal) : ReadsBack literal l l.lexemes [.mark .colon] := by
  intro ts rest h hrest
  obtain ⟨t, mid, rfl, ht, h⟩ := reads_cons.mp h
  have hkind : literalKind? t.kind = some l.kind := by
    rw [← literalKind?_lexeme l, ← ht]
    rfl
  refine bind_eq_ok.mpr ⟨some t.kind, t :: mid, kind?_eq_ok.mpr ⟨rfl, rfl⟩, ?_⟩
  simp only [hkind]
  refine bind_eq_ok.mpr ⟨t, mid, expect_eq_ok.mpr ⟨rfl, rfl⟩, ?_⟩
  refine bind_eq_ok.mpr ⟨l.typ, rest, typ?_readsBack _ _ _ h hrest, ?_⟩
  rw [literalValue_of_lexeme ht]
  rfl

/-! ## Sequences -/

/-- Items with commas between them.  A comma may follow an item, and so may what follows the
last one. -/
theorem separated_readsBack {item : Parser α} {lexemes : α → List Lexeme}
    {stops : List Token.Kind} (hcomma : .mark .comma ∉ stops) {xs : List α} (hne : xs ≠ [])
    (hitem : ∀ x ∈ xs, ReadsBack item x (lexemes x) stops) {n : Nat} (hn : xs.length ≤ n + 1) :
    ReadsBack (separated item n) xs (commaLexemes (xs.map lexemes)) (.mark .comma :: stops) := by
  intro ts rest h hrest
  induction xs generalizing ts n with
  | nil => exact absurd rfl hne
  | cons x xs ih =>
      obtain ⟨hx, hxs⟩ := List.forall_mem_cons.mp hitem
      by_cases hnil : xs = []
      · subst hnil
        have hfirst := hx ts rest h (hrest.mono (List.subset_cons_self ..))
        cases n with
        | zero => exact bind_eq_ok.mpr ⟨x, rest, hfirst, rfl⟩
        | succ n =>
            have hcomma : NoneOf [.mark .comma] rest := hrest.mono (by simp)
            exact bind_eq_ok.mpr ⟨x, rest, hfirst,
              bind_eq_ok.mpr ⟨none, rest, accept?_eq_none.mpr ⟨rfl, hcomma⟩, rfl⟩⟩
      · rw [List.map_cons, commaLexemes_cons _ (by simpa using hnil), List.append_assoc] at h
        obtain ⟨mid, hfirst, h⟩ := reads_append.mp h
        have hfirst := hx ts mid hfirst (Reads.noneOf h hcomma)
        obtain ⟨t, behind, ht, -, h⟩ := accept?_of_reads h
        have hpos := List.length_pos_iff.mpr hnil
        rw [List.length_cons] at hn
        obtain ⟨n, rfl⟩ : ∃ m, n = m + 1 := ⟨n - 1, by omega⟩
        have hothers := ih hnil hxs (n := n) (by omega) behind h
        exact bind_eq_ok.mpr ⟨x, mid, hfirst, bind_eq_ok.mpr ⟨some t, behind, ht,
          bind_eq_ok.mpr ⟨xs, rest, hothers, rfl⟩⟩⟩

theorem typedNames_readsBack {vs : List TypedName} (hne : vs ≠ []) {n : Nat}
    (hn : vs.length ≤ n + 1) :
    ReadsBack (typedNames n) vs (TypedName.listLexemes vs) [.mark .comma, .mark .colon] :=
  separated_readsBack (by decide) hne (fun v _ => typedName_readsBack v) hn

/-- Items that start with some kinds of token, up to a token that starts no item. -/
theorem many_readsBack {starts : Token.Kind → Bool} {item : Parser α}
    {lexemes : α → List Lexeme} {stops : List Token.Kind}
    (hstops : ∀ k, starts k = true → k ∉ stops) {xs : List α}
    (hstart : ∀ x ∈ xs, ∃ l ls, lexemes x = l :: ls ∧ starts l.kind = true)
    (hitem : ∀ x ∈ xs, ReadsBack item x (lexemes x) stops) {n : Nat} (hn : xs.length ≤ n)
    (h : Reads ts (xs.flatMap lexemes) rest) (hrest : NoneOf stops rest)
    (hstop : ∀ t ∈ rest.head?, starts t.kind = false) :
    many starts item n ts = .ok (xs, rest) := by
  induction xs generalizing ts n with
  | nil =>
      obtain rfl := reads_nil.mp h
      cases n with
      | zero => rfl
      | succ n =>
          refine bind_eq_ok.mpr ⟨_, ts, kind?_eq_ok.mpr ⟨rfl, rfl⟩, ?_⟩
          cases ts with
          | nil => rfl
          | cons t ts => simp [hstop t rfl, pure_eq_ok]
  | cons x xs ih =>
      obtain ⟨hx, hxs⟩ := List.forall_mem_cons.mp hitem
      obtain ⟨⟨l, ls, hl, hstarts⟩, hothers⟩ := List.forall_mem_cons.mp hstart
      rw [List.length_cons] at hn
      obtain ⟨n, rfl⟩ : ∃ m, n = m + 1 := ⟨n - 1, by omega⟩
      rw [List.flatMap_cons] at h
      obtain ⟨mid, hfirst, h⟩ := reads_append.mp h
      have hall := ih hothers hxs (n := n) (by omega) h
      -- What follows the item is the next item or what follows the last one.
      have hmid : NoneOf stops mid := by
        cases xs with
        | nil => exact reads_nil.mp h ▸ hrest
        | cons y ys =>
            obtain ⟨l', ls', hl', hstarts'⟩ := hothers y (List.mem_cons_self ..)
            rw [List.flatMap_cons, hl', List.cons_append] at h
            exact h.noneOf (hstops _ hstarts')
      refine bind_kind?_of_reads (hl ▸ hfirst) ?_
      simp only [hstarts, if_true]
      exact bind_eq_ok.mpr ⟨x, mid, hx ts mid hfirst hmid, bind_eq_ok.mpr ⟨xs, rest, hall, rfl⟩⟩

/-! ## Expressions -/

theorem length_le_commaLexemes (lss : List (List Lexeme)) :
    lss.length ≤ (commaLexemes lss).length + 1 ∧
      ∀ ls ∈ lss, ls.length ≤ (commaLexemes lss).length := by
  induction lss with
  | nil => simp
  | cons ls rest ih =>
      by_cases hnil : rest = []
      · simp [hnil, commaLexemes]
      · rw [commaLexemes_cons ls hnil]
        simp only [List.length_append, List.length_cons, List.length_nil, List.forall_mem_cons]
        refine ⟨by omega, by omega, fun ms hms => ?_⟩
        have := ih.2 ms hms
        omega

/-- An expression starts with a token that an expression may start with. -/
theorem startsExpr_lexemes (e : Expr) :
    ∃ l ls, e.lexemes = l :: ls ∧ startsExpr l.kind = true := by
  cases e with
  | literal l => exact ⟨_, _, rfl, by simp [startsExpr, literalKind?_lexeme]⟩
  | «variable» x => exact ⟨_, _, rfl, rfl⟩
  | call f args => exact ⟨_, _, rfl, rfl⟩

theorem startsExpr_commaLexemes (e : Expr) (es : List Expr) :
    ∃ l ls, commaLexemes ((e :: es).map Expr.lexemes) = l :: ls ∧ startsExpr l.kind = true := by
  obtain ⟨l, ls, hl, hstarts⟩ := startsExpr_lexemes e
  rw [List.map_cons, hl]
  cases es with
  | nil => exact ⟨l, ls, rfl, hstarts⟩
  | cons e' es => exact ⟨l, _, rfl, hstarts⟩

/-- The kinds of token that would go on with an expression. -/
def exprStops : List Token.Kind :=
  [.mark .colon, .mark .openParen]

/-- An expression that is read back from its tokens, whatever the bound, if it is no less than
the number of these tokens. -/
def ExprReadsBack (e : Expr) : Prop :=
  ∀ n, e.lexemes.length ≤ n → ReadsBack (expr n) e e.lexemes exprStops

mutual

theorem expr_readsBack : (e : Expr) → ExprReadsBack e
  | .literal l => by
      intro n hn ts rest h hrest
      simp only [Expr.lexemes, Literal.lexemes, List.length_append, List.length_cons] at hn
      obtain ⟨n, rfl⟩ : ∃ m, n = m + 1 := ⟨n - 1, by omega⟩
      have hkind := literalKind?_lexeme l
      have hnone : NoneOf [.identifier] ts := h.noneOf fun hmem => by
        rw [List.mem_singleton.mp hmem] at hkind
        cases hkind
      have hstarts : startsExpr l.lexeme.kind = true := by simp [startsExpr, hkind]
      refine bind_eq_ok.mpr ⟨none, ts, accept?_eq_none.mpr ⟨rfl, hnone⟩, ?_⟩
      refine bind_kind?_of_reads h ?_
      simp only [Option.any_some, hstarts, if_true]
      have hliteral := literal_readsBack l ts rest h (hrest.mono (by simp [exprStops]))
      exact bind_eq_ok.mpr ⟨l, rest, hliteral, rfl⟩
  | .variable x => by
      intro n hn ts rest h hrest
      simp only [Expr.lexemes, List.length_cons] at hn
      obtain ⟨n, rfl⟩ : ∃ m, n = m + 1 := ⟨n - 1, by omega⟩
      obtain ⟨t, mid, ht, rfl, hmid⟩ := accept?_of_reads h
      obtain rfl := reads_nil.mp hmid
      refine bind_eq_ok.mpr ⟨some t, mid, ht, ?_⟩
      exact bind_eq_ok.mpr ⟨none, mid,
        accept?_eq_none.mpr ⟨rfl, hrest.mono (by simp [exprStops])⟩, rfl⟩
  | .call f args => by
      intro n hn ts rest h hrest
      rw [Expr.lexemes, Expr.lexemesOfList_eq_map] at hn h
      obtain ⟨hcount, hlength⟩ := length_le_commaLexemes (args.map Expr.lexemes)
      have hargs' := args_readBack args
      rw [List.length_map] at hcount
      simp only [List.length_append, List.length_cons, List.length_nil] at hn
      obtain ⟨n, rfl⟩ : ∃ m, n = m + 1 := ⟨n - 1, by omega⟩
      simp only [List.cons_append, List.nil_append] at h
      obtain ⟨t, mid, ht, hf, h⟩ := accept?_of_reads h
      obtain ⟨u, mid₁, hu, -, h⟩ := accept?_of_reads h
      refine bind_eq_ok.mpr ⟨some t, mid, ht, bind_eq_ok.mpr ⟨some u, mid₁, hu, ?_⟩⟩
      refine bind_eq_ok.mpr ⟨_, mid₁, kind?_eq_ok.mpr ⟨rfl, rfl⟩, ?_⟩
      obtain ⟨mid₂, hargs, hclose⟩ := reads_append.mp h
      have hparen : NoneOf (.mark .comma :: exprStops) mid₂ := hclose.noneOf (by decide)
      obtain ⟨mid₃, hclose', hrest'⟩ := mark_of_reads hclose
      obtain rfl := reads_nil.mp hrest'
      subst hf
      have hlast : (do mark .closeParen; pure (Expr.call t.text args) : Parser Expr) mid₂
          = .ok (.call t.text args, mid₃) := bind_eq_ok.mpr ⟨(), mid₃, hclose', rfl⟩
      cases args with
      | nil =>
          obtain rfl := reads_nil.mp hargs
          rw [head_kind_of_reads hclose, Option.any_some, if_neg (by decide)]
          exact hlast
      | cons e rest =>
          obtain ⟨l, ls, hl, hstarts⟩ := startsExpr_commaLexemes e rest
          rw [head_kind_of_reads (hl ▸ hargs), Option.any_some, if_pos hstarts]
          refine bind_eq_ok.mpr ⟨e :: rest, mid₂, ?_, hlast⟩
          refine separated_readsBack (by decide) (by simp) (fun e' he' => ?_) (by omega) mid₁ mid₂
            hargs hparen
          have hle := hlength _ (List.mem_map_of_mem he')
          exact hargs' e' he' n (by omega)

theorem args_readBack : (es : List Expr) → ∀ e ∈ es, ExprReadsBack e
  | [] => fun _ he => nomatch he
  | e :: es => List.forall_mem_cons.mpr ⟨expr_readsBack e, args_readBack es⟩

end

/-! ## Statements -/

/-- The kinds of token that would go on with a statement. -/
def stmtStops : List Token.Kind :=
  [.mark .colon, .mark .openParen, .mark .comma, .mark .gets, .keyword .caseK,
    .keyword .defaultK]

/-- No token that starts a statement goes on with the statement before it. -/
theorem not_mem_stmtStops {k : Token.Kind} (h : startsStmt k = true) : k ∉ stmtStops := by
  cases k with
  | keyword k => cases k <;> revert h <;> decide
  | mark m => cases m <;> revert h <;> decide
  | _ => decide

theorem initializer?_readsBack (value : Option Expr) {n : Nat}
    (hn : (initializerLexemes value).length ≤ n) :
    ReadsBack (initializer? n) value (initializerLexemes value) stmtStops := by
  intro ts rest h hrest
  cases value with
  | none =>
      obtain rfl := reads_nil.mp h
      exact bind_eq_ok.mpr ⟨none, ts,
        accept?_eq_none.mpr ⟨rfl, hrest.mono (by simp [stmtStops])⟩, rfl⟩
  | some e =>
      simp only [initializerLexemes, List.length_append, List.length_cons] at hn
      obtain ⟨t, mid, ht, -, h⟩ := accept?_of_reads h
      have he := expr_readsBack e n (by omega) mid rest h
        (hrest.mono (by simp [stmtStops, exprStops]))
      exact bind_eq_ok.mpr ⟨some t, mid, ht, bind_eq_ok.mpr ⟨e, rest, he, rfl⟩⟩

theorem length_le_listLexemes (vs : List TypedName) :
    vs.length ≤ (TypedName.listLexemes vs).length + 1 := by
  simpa [TypedName.listLexemes] using (length_le_commaLexemes (vs.map TypedName.lexemes)).1

theorem declaration_readsBack {vars : List TypedName} (hne : vars ≠ []) (value : Option Expr)
    {n : Nat} (hn : (Stmt.declare vars value).lexemes.length ≤ n) :
    ReadsBack (declaration n) (.declare vars value) (Stmt.declare vars value).lexemes
      stmtStops := by
  intro ts rest h hrest
  have hvars := length_le_listLexemes vars
  simp only [Stmt.lexemes, List.length_append, List.length_cons, List.length_nil] at hn
  simp only [Stmt.lexemes, List.cons_append, List.nil_append] at h
  obtain ⟨mid, hlet, h⟩ := keyword_of_reads h
  obtain ⟨mid₁, hreads, h⟩ := reads_append.mp h
  have hmid : NoneOf [.mark .comma, .mark .colon] mid₁ := by
    cases value with
    | none => exact reads_nil.mp h ▸ hrest.mono (by simp [stmtStops])
    | some e => exact h.noneOf (by decide)
  have hvars := typedNames_readsBack hne (n := n) (by omega) mid mid₁ hreads hmid
  have hvalue := initializer?_readsBack value (n := n) (by omega) mid₁ rest h hrest
  exact bind_eq_ok.mpr ⟨(), mid, hlet, bind_eq_ok.mpr ⟨vars, mid₁, hvars,
    bind_eq_ok.mpr ⟨value, rest, hvalue, rfl⟩⟩⟩

theorem returns_readsBack (rs : List TypedName) {n : Nat} (hn : (returnsLexemes rs).length ≤ n) :
    ReadsBack (returns n) rs (returnsLexemes rs) [.mark .arrow, .mark .comma, .mark .colon] := by
  intro ts rest h hrest
  cases rs with
  | nil =>
      obtain rfl := reads_nil.mp h
      exact bind_eq_ok.mpr ⟨none, ts,
        accept?_eq_none.mpr ⟨rfl, hrest.mono (by simp)⟩, rfl⟩
  | cons r rs =>
      have hcount := length_le_listLexemes (r :: rs)
      simp only [returnsLexemes, List.length_append, List.length_cons, List.length_nil] at hn hcount
      obtain ⟨t, mid, ht, -, h⟩ := accept?_of_reads h
      have hnames := typedNames_readsBack (by simp) (n := n) (by simp; omega) mid rest h
        (hrest.mono (by simp))
      exact bind_eq_ok.mpr ⟨some t, mid, ht, hnames⟩

theorem assignment_readsBack {targets : List String} (hne : targets ≠ []) (value : Expr)
    {n : Nat} (hn : (Stmt.assign targets value).lexemes.length ≤ n) :
    ReadsBack (assignment n) (.assign targets value) (Stmt.assign targets value).lexemes
      exprStops := by
  intro ts rest h hrest
  have hcount := (length_le_commaLexemes (targets.map fun x => [.name x])).1
  simp only [Stmt.lexemes, namesLexemes, List.length_append, List.length_cons, List.length_nil,
    List.length_map] at hn hcount
  simp only [Stmt.lexemes, namesLexemes, List.append_assoc, List.cons_append,
    List.nil_append] at h
  obtain ⟨mid, hreads, h⟩ := reads_append.mp h
  have hcomma : Token.Kind.mark .comma ∉ [] := List.not_mem_nil
  have htargets := separated_readsBack hcomma hne
    (fun x _ ts rest h _ => name_eq_ok.mpr h) (n := n) (by omega) ts mid hreads
    (h.noneOf (by decide))
  obtain ⟨t, mid₁, ht, -, h⟩ := accept?_of_reads h
  have hvalue := expr_readsBack value n (by omega) mid₁ rest h hrest
  exact bind_eq_ok.mpr ⟨targets, mid, htargets, bind_eq_ok.mpr ⟨some t, mid₁, ht,
    bind_eq_ok.mpr ⟨value, rest, hvalue, rfl⟩⟩⟩

section Blocks

variable {block : Parser Block} {n : Nat}

theorem length_le_flatMap (lexemes : α → List Lexeme) (xs : List α)
    (hpos : ∀ x ∈ xs, lexemes x ≠ []) :
    xs.length ≤ (xs.flatMap lexemes).length ∧
      ∀ x ∈ xs, (lexemes x).length ≤ (xs.flatMap lexemes).length := by
  induction xs with
  | nil => simp
  | cons x xs ih =>
      obtain ⟨hx, hxs⟩ := List.forall_mem_cons.mp hpos
      obtain ⟨hcount, hall⟩ := ih hxs
      have := List.length_pos_iff.mpr hx
      simp only [List.flatMap_cons, List.length_append, List.length_cons, List.forall_mem_cons]
      refine ⟨by omega, by omega, fun y hy => ?_⟩
      have := hall y hy
      omega

theorem Case.lexemesOne_ne_nil (c : Case) : c.lexemesOne ≠ [] := by
  simp [Case.lexemesOne, bracedLexemes]

/-- The tokens of the block of a case are among those of all cases. -/
theorem Case.length_body_le {cases : List Case} {c : Case} (hc : c ∈ cases) :
    (bracedLexemes (Block.innerLexemes c.body)).length ≤ (Case.lexemes cases).length := by
  have hle := (length_le_flatMap Case.lexemesOne cases fun c _ => Case.lexemesOne_ne_nil c).2 c hc
  rw [Case.lexemes_eq_flatMap]
  simp only [Case.lexemesOne, List.length_append] at hle
  omega

/-- A block that a parser of blocks reads back. -/
def BlockReadsBack (block : Parser Block) (b : Block) : Prop :=
  ReadsBack block b b.lexemes []

theorem BlockReadsBack.eq_ok {b : Block} (hb : BlockReadsBack block b)
    (h : Reads ts b.lexemes rest) : block ts = .ok (b, rest) :=
  hb ts rest h fun _ _ => List.not_mem_nil

theorem definition_readsBack (f : String) (params returns : List TypedName) {body : Block}
    (hbody : BlockReadsBack block body)
    (hn : (Stmt.define f params returns body).lexemes.length ≤ n) :
    ReadsBack (definition n block) (.define f params returns body)
      (Stmt.define f params returns body).lexemes [] := by
  intro ts rest h _
  have hcount := length_le_listLexemes params
  simp only [Stmt.lexemes, List.length_append, List.length_cons, List.length_nil] at hn
  simp only [Stmt.lexemes, List.append_assoc, List.cons_append, List.nil_append] at h
  obtain ⟨mid, hfunction, h⟩ := keyword_of_reads h
  obtain ⟨mid₁, hname, h⟩ := name_of_reads h
  obtain ⟨mid₂, hopen, h⟩ := mark_of_reads h
  obtain ⟨mid₃, hparams, h⟩ := reads_append.mp h
  have hparen : NoneOf [.mark .comma, .mark .colon] mid₃ := h.noneOf (by decide)
  have hnext := head_kind_of_reads h
  obtain ⟨mid₄, hclose, h⟩ := mark_of_reads h
  obtain ⟨mid₅, hreturns, h⟩ := reads_append.mp h
  have hreturns := returns_readsBack returns (n := n) (by omega) mid₄ mid₅ hreturns
    (Reads.noneOf h (by decide))
  have hlast : (do mark .closeParen
                   let rs ← Parser.returns n
                   let body ← block
                   pure (.define f params rs body) : Parser Stmt) mid₃
      = .ok (.define f params returns body, rest) :=
    bind_eq_ok.mpr ⟨(), mid₄, hclose, bind_eq_ok.mpr ⟨returns, mid₅, hreturns,
      bind_eq_ok.mpr ⟨body, rest, hbody.eq_ok h, rfl⟩⟩⟩
  refine bind_eq_ok.mpr ⟨(), mid, hfunction, bind_eq_ok.mpr ⟨f, mid₁, hname,
    bind_eq_ok.mpr ⟨(), mid₂, hopen, bind_eq_ok.mpr ⟨_, mid₂, kind?_eq_ok.mpr ⟨rfl, rfl⟩, ?_⟩⟩⟩⟩
  cases params with
  | nil =>
      obtain rfl := reads_nil.mp hparams
      rw [hnext]
      exact hlast
  | cons v vs =>
      have hvars := typedNames_readsBack (by simp) (n := n) (by omega) mid₂ mid₃ hparams hparen
      obtain ⟨ls, hls⟩ : ∃ ls, TypedName.listLexemes (v :: vs) = .name v.name :: ls := by
        cases vs <;> exact ⟨_, rfl⟩
      rw [head_kind_of_reads (hls ▸ hparams)]
      exact bind_eq_ok.mpr ⟨v :: vs, mid₃, hvars, hlast⟩

theorem branch_readsBack (condition : Expr) {body : Block} (hbody : BlockReadsBack block body)
    (hn : (Stmt.branch condition body).lexemes.length ≤ n) :
    ReadsBack (branch n block) (.branch condition body) (Stmt.branch condition body).lexemes
      [] := by
  intro ts rest h _
  simp only [Stmt.lexemes, List.length_append, List.length_cons, List.length_nil] at hn
  simp only [Stmt.lexemes, List.cons_append, List.nil_append] at h
  obtain ⟨mid, hif, h⟩ := keyword_of_reads h
  obtain ⟨mid₁, hcondition, h⟩ := reads_append.mp h
  have hcondition := expr_readsBack condition n (by omega) mid mid₁ hcondition
    (Reads.noneOf h (by decide))
  exact bind_eq_ok.mpr ⟨(), mid, hif, bind_eq_ok.mpr ⟨condition, mid₁, hcondition,
    bind_eq_ok.mpr ⟨body, rest, hbody.eq_ok h, rfl⟩⟩⟩

theorem loop_readsBack (condition : Expr) {pre post body : Block}
    (hpre : BlockReadsBack block pre) (hpost : BlockReadsBack block post)
    (hbody : BlockReadsBack block body)
    (hn : (Stmt.loop pre condition post body).lexemes.length ≤ n) :
    ReadsBack (loop n block) (.loop pre condition post body)
      (Stmt.loop pre condition post body).lexemes [] := by
  intro ts rest h _
  simp only [Stmt.lexemes, List.length_append, List.length_cons, List.length_nil] at hn
  simp only [Stmt.lexemes, List.append_assoc, List.cons_append, List.nil_append] at h
  obtain ⟨mid, hfor, h⟩ := keyword_of_reads h
  obtain ⟨mid₁, hpre', h⟩ := reads_append.mp h
  obtain ⟨mid₂, hcondition, h⟩ := reads_append.mp h
  have hcondition := expr_readsBack condition n (by omega) mid₁ mid₂ hcondition
    (Reads.noneOf h (by decide))
  obtain ⟨mid₃, hpost', h⟩ := reads_append.mp h
  exact bind_eq_ok.mpr ⟨(), mid, hfor, bind_eq_ok.mpr ⟨pre, mid₁, hpre.eq_ok hpre',
    bind_eq_ok.mpr ⟨condition, mid₂, hcondition, bind_eq_ok.mpr ⟨post, mid₃, hpost.eq_ok hpost',
      bind_eq_ok.mpr ⟨body, rest, hbody.eq_ok h, rfl⟩⟩⟩⟩⟩

theorem valueCase_readsBack (l : Literal) {body : Block} (hbody : BlockReadsBack block body) :
    ReadsBack (valueCase block) ⟨some l, body⟩ (Case.lexemesOne ⟨some l, body⟩) [] := by
  intro ts rest h _
  simp only [Case.lexemesOne, caseHeadLexemes, List.cons_append, List.nil_append] at h
  obtain ⟨mid, hcase, h⟩ := keyword_of_reads h
  obtain ⟨mid₁, hl, h⟩ := reads_append.mp h
  have hl := literal_readsBack l mid mid₁ hl (Reads.noneOf h (by decide))
  exact bind_eq_ok.mpr ⟨(), mid, hcase, bind_eq_ok.mpr ⟨l, mid₁, hl,
    bind_eq_ok.mpr ⟨body, rest, hbody.eq_ok h, rfl⟩⟩⟩

/-- Cases of which at most the last one is a default case are the cases with values and then the
default case. -/
theorem exists_append_of_dropLast {cases : List Case}
    (h : ∀ c ∈ cases.dropLast, c.value.isSome = true) :
    ∃ valued default, cases = valued ++ default ∧ (∀ c ∈ valued, c.value.isSome = true) ∧
      (default = [] ∨ ∃ body, default = [⟨none, body⟩]) := by
  rcases List.eq_nil_or_concat' cases with rfl | ⟨front, last, rfl⟩
  · exact ⟨[], [], rfl, by simp, Or.inl rfl⟩
  · rw [List.dropLast_concat] at h
    obtain ⟨_ | l, body⟩ := last
    · exact ⟨front, [⟨none, body⟩], rfl, h, Or.inr ⟨body, rfl⟩⟩
    · refine ⟨front ++ [⟨some l, body⟩], [], by simp, ?_, Or.inl rfl⟩
      exact List.forall_mem_append.mpr ⟨h, List.forall_mem_singleton.mpr rfl⟩

theorem defaultCase_readsBack {default : List Case}
    (hdefault : default = [] ∨ ∃ body, default = [⟨none, body⟩])
    (hbodies : ∀ c ∈ default, BlockReadsBack block c.body) :
    ReadsBack (defaultCase block) default (default.flatMap Case.lexemesOne)
      [.keyword .defaultK] := by
  intro ts rest h hrest
  rcases hdefault with rfl | ⟨body, rfl⟩
  · obtain rfl := reads_nil.mp h
    exact bind_eq_ok.mpr ⟨none, ts, accept?_eq_none.mpr ⟨rfl, hrest⟩, rfl⟩
  · rw [List.flatMap_cons, List.flatMap_nil, List.append_nil] at h
    obtain ⟨t, mid, ht, -, h⟩ := accept?_of_reads h
    have hbody := (hbodies _ (List.mem_cons_self ..)).eq_ok h
    exact bind_eq_ok.mpr ⟨some t, mid, ht, bind_eq_ok.mpr ⟨body, rest, hbody, rfl⟩⟩

theorem switch_readsBack (scrutinee : Expr) {cases : List Case} (hne : cases ≠ [])
    (hlast : ∀ c ∈ cases.dropLast, c.value.isSome = true)
    (hbodies : ∀ c ∈ cases, BlockReadsBack block c.body)
    (hn : (Stmt.switch scrutinee cases).lexemes.length ≤ n) :
    ReadsBack (switch n block) (.switch scrutinee cases) (Stmt.switch scrutinee cases).lexemes
      [.keyword .caseK, .keyword .defaultK] := by
  intro ts rest h hrest
  obtain ⟨valued, default, rfl, hvalued, hdefault⟩ := exists_append_of_dropLast hlast
  obtain ⟨hbodies, hdefaultBodies⟩ := List.forall_mem_append.mp hbodies
  simp only [Stmt.lexemes, Case.lexemes_eq_flatMap, List.flatMap_append, List.length_append,
    List.length_cons, List.length_nil] at hn
  simp only [Stmt.lexemes, List.cons_append, List.nil_append] at h
  obtain ⟨mid, hswitch, h⟩ := keyword_of_reads h
  obtain ⟨mid₁, hscrutinee, h⟩ := reads_append.mp h
  -- Behind the scrutinee a case starts, and behind the cases with values the default case or
  -- what follows the switch.
  have hmid₁ : NoneOf exprStops mid₁ := by
    obtain ⟨⟨_ | l, body⟩, others, hcases⟩ := List.exists_cons_of_ne_nil hne
    · exact Reads.noneOf (l := .keyword .defaultK) (hcases ▸ h) (by decide)
    · exact Reads.noneOf (l := .keyword .caseK) (hcases ▸ h) (by decide)
  rw [Case.lexemes_eq_flatMap, List.flatMap_append] at h
  obtain ⟨mid₂, hcases, h⟩ := reads_append.mp h
  obtain ⟨hcount, -⟩ := length_le_flatMap Case.lexemesOne valued fun c _ =>
    Case.lexemesOne_ne_nil c
  have hmid₂ : NoneOf [.keyword .caseK] mid₂ := by
    rcases hdefault with rfl | ⟨body, rfl⟩
    · exact reads_nil.mp h ▸ hrest.mono (by simp)
    · exact Reads.noneOf (l := .keyword .defaultK) h (by decide)
  have hscrutinee := expr_readsBack scrutinee n (by omega) mid mid₁ hscrutinee hmid₁
  have hcases : many (· == .keyword .caseK) (valueCase block) n mid₁ = .ok (valued, mid₂) := by
    have hstops : ∀ k : Token.Kind, (k == .keyword .caseK) = true → k ∉ [] :=
      fun _ _ => List.not_mem_nil
    refine many_readsBack hstops (fun c hc => ?_) (fun c hc => ?_) (by omega)
      hcases (fun _ _ => List.not_mem_nil) (fun t ht => ?_)
    · obtain ⟨_ | l, body⟩ := c
      · cases hvalued _ hc
      · exact ⟨.keyword .caseK, _, rfl, rfl⟩
    · obtain ⟨_ | l, body⟩ := c
      · cases hvalued _ hc
      · exact valueCase_readsBack l (hbodies _ hc)
    · simpa using hmid₂ t ht
  have hdefault := defaultCase_readsBack hdefault hdefaultBodies mid₂ rest h
    (hrest.mono (by simp))
  refine bind_eq_ok.mpr ⟨(), mid, hswitch, bind_eq_ok.mpr ⟨scrutinee, mid₁, hscrutinee,
    bind_eq_ok.mpr ⟨valued, mid₂, hcases, bind_eq_ok.mpr ⟨default, rest, hdefault, ?_⟩⟩⟩⟩
  rw [if_neg (by simpa using hne)]
  rfl

end Blocks

/-- A statement that is read back from its tokens, if the bound is no less than their number. -/
def StmtReadsBack (s : Stmt) : Prop :=
  ∀ n, s.lexemes.length ≤ n → ReadsBack (stmt n (block n)) s s.lexemes stmtStops

/-- A statement starts with a token that a statement may start with. -/
theorem startsStmt_lexemes {s : Stmt} (h : s.Formed) :
    ∃ l ls, s.lexemes = l :: ls ∧ startsStmt l.kind = true := by
  match s, h with
  | .expr (.call f args), _ => exact ⟨_, _, rfl, rfl⟩
  | .assign (x :: xs) value, _ => cases xs <;> exact ⟨_, _, rfl, rfl⟩
  | .assign [] value, h => exact absurd rfl h.1
  | .declare .., _ | .define .., _ | .branch .., _ | .switch .., _ | .loop .., _
  | .break, _ | .continue, _ | .leave, _ | .block _, _ => exact ⟨_, _, rfl, rfl⟩

/-- A block is read back if its statements are. -/
theorem block_readsBack {b : Block} (hformed : Block.Each Stmt.Formed b)
    (hstmts : ∀ s ∈ b, StmtReadsBack s) {n : Nat}
    (hn : (bracedLexemes (Block.innerLexemes b)).length ≤ n) :
    BlockReadsBack (block n) b := by
  intro ts rest h _
  rw [bracedLexemes, Block.innerLexemes_eq_flatMap] at hn
  rw [Block.lexemes, bracedLexemes, Block.innerLexemes_eq_flatMap] at h
  simp only [List.length_append, List.length_cons, List.length_nil] at hn
  simp only [List.cons_append, List.nil_append] at h
  obtain ⟨n, rfl⟩ : ∃ m, n = m + 1 := ⟨n - 1, by omega⟩
  have hstart : ∀ s ∈ b, ∃ l ls, s.lexemes = l :: ls ∧ startsStmt l.kind = true :=
    fun s hs => startsStmt_lexemes (hformed.mem hs).head
  obtain ⟨hcount, hlength⟩ := length_le_flatMap Stmt.lexemes b fun s hs => by
    obtain ⟨l, ls, hl, -⟩ := hstart s hs
    simp [hl]
  obtain ⟨mid, hopen, h⟩ := mark_of_reads h
  obtain ⟨mid₁, hreads, h⟩ := reads_append.mp h
  have hinner : many startsStmt (stmt n (block n)) n mid = .ok (b, mid₁) := by
    refine many_readsBack (fun k => not_mem_stmtStops) hstart (fun s hs => ?_) (by omega) hreads
      (h.noneOf (by decide)) (fun t ht => ?_)
    · have hle := hlength s hs
      exact hstmts s hs n (by omega)
    · have hclose := head_kind_of_reads h
      rw [ht, Option.map_some, Option.some.injEq] at hclose
      rw [hclose]
      rfl
  obtain ⟨mid₂, hclose, h⟩ := mark_of_reads h
  obtain rfl := reads_nil.mp h
  exact bind_eq_ok.mpr ⟨(), mid, hopen, bind_eq_ok.mpr ⟨b, mid₁, hinner,
    bind_eq_ok.mpr ⟨(), mid₂, hclose, rfl⟩⟩⟩

theorem second_kind_of_reads {l l' : Lexeme} (h : Reads ts (l :: l' :: ls) rest) :
    ts.tail.head?.map Token.kind = some l'.kind := by
  obtain ⟨t, mid, rfl, -, h⟩ := reads_cons.mp h
  exact head_kind_of_reads h

/-- A statement that starts with a name is a call if a parenthesis follows the name. -/
theorem assignmentOrCall_readsBack {s : Stmt} {n : Nat} (hcomplete : s.IsComplete)
    (hs : (∃ e, s = .expr e) ∨ ∃ targets value, s = .assign targets value)
    (hn : s.lexemes.length ≤ n) :
    ReadsBack (assignmentOrCall n) s s.lexemes exprStops := by
  intro ts rest h hrest
  refine bind_eq_ok.mpr ⟨_, ts, secondKind?_eq_ok.mpr ⟨rfl, rfl⟩, ?_⟩
  match s, hs, hcomplete with
  | .expr (.call f args), _, _ =>
      rw [second_kind_of_reads h]
      have he := expr_readsBack (.call f args) n hn ts rest h hrest
      exact bind_eq_ok.mpr ⟨.call f args, rest, he, rfl⟩
  | .assign (x :: targets) value, _, hne =>
      have hsecond : ts.tail.head?.map Token.kind ≠ some (.mark .openParen) := by
        cases targets with
        | nil =>
            rw [second_kind_of_reads h]
            decide
        | cons y ys =>
            rw [second_kind_of_reads h]
            decide
      rw [if_neg hsecond]
      exact assignment_readsBack hne value hn ts rest h hrest

mutual

theorem stmt_readsBack : (s : Stmt) → s.Each Stmt.Formed → StmtReadsBack s
  | .expr e, h => by
      intro n hn ts rest hreads hrest
      have hread := assignmentOrCall_readsBack h.head.1 (Or.inl ⟨e, rfl⟩) hn ts rest hreads
        (hrest.mono (by simp [stmtStops, exprStops]))
      match e, h.head.1 with
      | .call f args, _ => exact bind_kind?_of_reads hreads hread
  | .assign targets value, h => by
      intro n hn ts rest hreads hrest
      have hread := assignmentOrCall_readsBack h.head.1 (Or.inr ⟨targets, value, rfl⟩) hn ts rest
        hreads (hrest.mono (by simp [stmtStops, exprStops]))
      match targets, h.head.1 with
      | [x], _ => exact bind_kind?_of_reads hreads hread
      | x :: y :: ys, _ => exact bind_kind?_of_reads hreads hread
  | .declare vars value, h => by
      intro n hn ts rest hreads hrest
      exact bind_kind?_of_reads hreads
        (declaration_readsBack h.head.1 value hn ts rest hreads hrest)
  | .define f params returns body, h => by
      intro n hn ts rest hreads hrest
      obtain ⟨-, hbody⟩ := Stmt.each_define.mp h
      have hlength := hn
      simp only [Stmt.lexemes, List.length_append] at hlength
      have hread := block_readsBack hbody (stmts_readBack body hbody) (n := n) (by omega)
      exact bind_kind?_of_reads hreads
        (definition_readsBack f params returns hread hn ts rest hreads (hrest.mono (by simp)))
  | .branch condition body, h => by
      intro n hn ts rest hreads hrest
      obtain ⟨-, hbody⟩ := Stmt.each_branch.mp h
      have hlength := hn
      simp only [Stmt.lexemes, List.length_append] at hlength
      have hread := block_readsBack hbody (stmts_readBack body hbody) (n := n) (by omega)
      exact bind_kind?_of_reads hreads
        (branch_readsBack condition hread hn ts rest hreads (hrest.mono (by simp)))
  | .switch scrutinee cases, h => by
      intro n hn ts rest hreads hrest
      obtain ⟨⟨-, hne, hlast⟩, hcases⟩ := Stmt.each_switch.mp h
      have hread : ∀ c ∈ cases, BlockReadsBack (block n) c.body := fun c hc => by
        refine block_readsBack (Case.each_iff.mp hcases c hc) (bodies_readBack cases hcases c hc) ?_
        have hle := Case.length_body_le hc
        simp only [Stmt.lexemes, List.length_append] at hn
        omega
      exact bind_kind?_of_reads hreads
        (switch_readsBack scrutinee hne hlast hread hn ts rest hreads
          (hrest.mono (by simp [stmtStops])))
  | .loop pre condition post body, h => by
      intro n hn ts rest hreads hrest
      obtain ⟨-, hpre, hpost, hbody⟩ := Stmt.each_loop.mp h
      have hlength := hn
      simp only [Stmt.lexemes, List.length_append] at hlength
      have hpre := block_readsBack hpre (stmts_readBack pre hpre) (n := n) (by omega)
      have hpost := block_readsBack hpost (stmts_readBack post hpost) (n := n) (by omega)
      have hbody := block_readsBack hbody (stmts_readBack body hbody) (n := n) (by omega)
      exact bind_kind?_of_reads hreads
        (loop_readsBack condition hpre hpost hbody hn ts rest hreads (hrest.mono (by simp)))
  | .break, _ => fun _ _ _ _ hreads _ =>
      bind_kind?_of_reads hreads (keyword_pure_of_reads hreads)
  | .continue, _ => fun _ _ _ _ hreads _ =>
      bind_kind?_of_reads hreads (keyword_pure_of_reads hreads)
  | .leave, _ => fun _ _ _ _ hreads _ =>
      bind_kind?_of_reads hreads (keyword_pure_of_reads hreads)
  | .block body, h => by
      intro n hn ts rest hreads _
      obtain ⟨-, hbody⟩ := Stmt.each_block.mp h
      have hread := (block_readsBack hbody (stmts_readBack body hbody) hn).eq_ok hreads
      exact bind_kind?_of_reads hreads (bind_eq_ok.mpr ⟨body, rest, hread, rfl⟩)

theorem stmts_readBack : (b : List Stmt) → Block.Each Stmt.Formed b → ∀ s ∈ b, StmtReadsBack s
  | [], _ => fun _ hs => nomatch hs
  | s :: rest, h => by
      rw [Block.each_cons] at h
      exact List.forall_mem_cons.mpr ⟨stmt_readsBack s h.1, stmts_readBack rest h.2⟩

theorem bodies_readBack : (cases : List Case) → Case.Each Stmt.Formed cases →
    ∀ c ∈ cases, ∀ s ∈ c.body, StmtReadsBack s
  | [], _ => fun _ hc => nomatch hc
  | ⟨_, body⟩ :: rest, h => by
      rw [Case.each_cons] at h
      exact List.forall_mem_cons.mpr ⟨stmts_readBack body h.1, bodies_readBack rest h.2⟩

end

end Parser

end SwitchHoist
