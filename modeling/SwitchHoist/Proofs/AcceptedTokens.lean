import SwitchHoist.Proofs.ParserSteps
import SwitchHoist.Proofs.PrintableTrees

/-!
# What the parser accepts

Where a parser succeeds it has read the tokens of the tree that it returns, and the tree has
the shape that the grammar asks for.  The tokens are taken to be what the lexer makes of a
text, so that the text of a mark or a keyword is known from its kind.
-/

namespace SwitchHoist

/-- Tokens as the lexer makes them. -/
def Proper (ts : List Token) : Prop :=
  ∀ t ∈ ts, t.lexeme.IsToken

theorem Reads.proper {ts rest : List Token} {ls : List Lexeme} (h : Reads ts ls rest)
    (hts : Proper ts) : Proper rest :=
  h.forall_rest hts

theorem Proper.head {t : Token} {ts : List Token} (h : Proper (t :: ts)) : t.lexeme.IsToken :=
  h t (List.mem_cons_self ..)

theorem Proper.tail {t : Token} {ts : List Token} (h : Proper (t :: ts)) : Proper ts :=
  fun u hu => h u (List.mem_cons_of_mem t hu)

/-- A kind of token that stands for one text. -/
def Token.Kind.IsFixed (k : Token.Kind) : Prop :=
  ∀ cs, k.Matches cs → cs = k.text.toList

theorem Mark.isFixed (m : Mark) : (Token.Kind.mark m).IsFixed :=
  fun _ h => h

theorem Keyword.isFixed (k : Keyword) : (Token.Kind.keyword k).IsFixed :=
  fun _ h => h

theorem Token.lexeme_of_isFixed {t : Token} (ht : t.lexeme.IsToken) (h : t.kind.IsFixed) :
    t.lexeme = ⟨t.kind, t.kind.text⟩ := by
  rw [Token.lexeme, ← String.toList_inj.mp (h _ ht.matches)]
  rfl

theorem Token.reads_self (t : Token) (ts : List Token) : Reads (t :: ts) [t.lexeme] ts :=
  ⟨[t], rfl, rfl⟩

namespace Parser

variable {α : Type} {ts rest : List Token}

theorem accept?_sound {k : Token.Kind} (hk : k.IsFixed) {t : Token} (hts : Proper ts)
    (h : accept? k ts = .ok (some t, rest)) : Reads ts [⟨k, k.text⟩] rest := by
  obtain ⟨rfl, rfl⟩ := accept?_eq_some.mp h
  exact Token.lexeme_of_isFixed hts.head hk ▸ t.reads_self rest

theorem mark_sound {m : Mark} {u : Unit} (hts : Proper ts) (h : mark m ts = .ok (u, rest)) :
    Reads ts [.mark m] rest := by
  obtain ⟨t, ht⟩ := mark_eq_ok.mp h
  exact accept?_sound m.isFixed hts (accept?_eq_some.mpr ht)

theorem keyword_sound {k : Keyword} {u : Unit} (hts : Proper ts)
    (h : keyword k ts = .ok (u, rest)) : Reads ts [.keyword k] rest := by
  obtain ⟨t, ht⟩ := keyword_eq_ok.mp h
  exact accept?_sound k.isFixed hts (accept?_eq_some.mpr ht)

theorem typ?_sound {typ : Option String} (hts : Proper ts) (h : typ? ts = .ok (typ, rest)) :
    Reads ts (typeLexemes typ) rest := by
  rw [typ?, bind_eq_ok] at h
  obtain ⟨_ | t, mid, ht, h⟩ := h
  · obtain ⟨rfl, rfl⟩ := pure_eq_ok.mp h
    exact reads_nil.mpr (accept?_eq_none.mp ht).1
  · obtain ⟨x, behind, hx, h⟩ := bind_eq_ok.mp h
    obtain ⟨rfl, rfl⟩ := pure_eq_ok.mp h
    exact (accept?_sound (Mark.isFixed .colon) hts ht).append (name_eq_ok.mp hx)

theorem typedName_sound {v : TypedName} (hts : Proper ts) (h : typedName ts = .ok (v, rest)) :
    Reads ts v.lexemes rest := by
  rw [typedName, bind_eq_ok] at h
  obtain ⟨x, mid, hx, h⟩ := h
  obtain ⟨typ, behind, htyp, h⟩ := bind_eq_ok.mp h
  obtain ⟨rfl, rfl⟩ := pure_eq_ok.mp h
  have hx := name_eq_ok.mp hx
  exact hx.append (typ?_sound (hx.proper hts) htyp)

/-- The token of a literal, from its kind and its value. -/
theorem lexeme_of_literalKind? {t : Token} (ht : t.lexeme.IsToken) {k : LiteralKind}
    (hk : literalKind? t.kind = some k) (typ : Option String) :
    Literal.lexeme ⟨k, literalValue t, typ⟩ = t.lexeme := by
  obtain ⟨kind, text, start⟩ := t
  have hmatches : kind.Matches text.toList := ht.matches
  unfold literalKind? at hk
  split at hk
  · next h =>
      cases hk
      obtain rfl : kind = .number := h
      rfl
  · next h =>
      cases hk
      obtain rfl : kind = .string := h
      obtain ⟨v, hv, -⟩ := hmatches
      obtain rfl : text = "\"" ++ String.ofList v ++ "\"" := by
        rw [← String.toList_inj, hv]
        simp
      simp [Literal.lexeme, literalValue, Token.lexeme]
  · next h =>
      cases hk
      obtain rfl : kind = .keyword .trueK := h
      obtain rfl : text = "true" := String.toList_inj.mp hmatches
      rfl
  · next h =>
      cases hk
      obtain rfl : kind = .keyword .falseK := h
      obtain rfl : text = "false" := String.toList_inj.mp hmatches
      rfl
  · cases hk

theorem literal_sound {l : Literal} (hts : Proper ts) (h : literal ts = .ok (l, rest)) :
    Reads ts l.lexemes rest := by
  rw [literal, bind_eq_ok] at h
  obtain ⟨_ | kind, mid, hkind, h⟩ := h
  · exact absurd h fail_ne_ok
  · obtain ⟨-, rfl⟩ := kind?_eq_ok.mp hkind
    cases hk : literalKind? kind with
    | none =>
        simp only [hk] at h
        exact absurd h fail_ne_ok
    | some k =>
        simp only [hk] at h
        obtain ⟨t, mid, ht, h⟩ := bind_eq_ok.mp h
        obtain ⟨typ, behind, htyp, h⟩ := bind_eq_ok.mp h
        obtain ⟨rfl, rfl⟩ := pure_eq_ok.mp h
        obtain ⟨rfl, rfl⟩ := expect_eq_ok.mp ht
        rw [Literal.lexemes, lexeme_of_literalKind? hts.head hk]
        exact (t.reads_self mid).append (typ?_sound hts.tail htyp)

/-! ## Sequences -/

theorem separated_sound {item : Parser α} {lexemes : α → List Lexeme}
    (hitem : ∀ {ts rest x}, Proper ts → item ts = .ok (x, rest) → Reads ts (lexemes x) rest)
    (n : Nat) {xs : List α} (hts : Proper ts) (h : separated item n ts = .ok (xs, rest)) :
    xs ≠ [] ∧ Reads ts (commaLexemes (xs.map lexemes)) rest := by
  induction n generalizing ts xs with
  | zero =>
      rw [separated, bind_eq_ok] at h
      obtain ⟨x, mid, hx, h⟩ := h
      obtain ⟨rfl, rfl⟩ := pure_eq_ok.mp h
      exact ⟨by simp, hitem hts hx⟩
  | succ n ih =>
      rw [separated, bind_eq_ok] at h
      obtain ⟨x, mid, hx, h⟩ := h
      have hreads := hitem hts hx
      obtain ⟨_ | t, behind, ht, h⟩ := bind_eq_ok.mp h
      · obtain ⟨rfl, rfl⟩ := pure_eq_ok.mp h
        obtain ⟨rfl, -⟩ := accept?_eq_none.mp ht
        exact ⟨by simp, hreads⟩
      · have hcomma := accept?_sound (Mark.isFixed .comma) (hreads.proper hts) ht
        obtain ⟨ys, last, hys, h⟩ := bind_eq_ok.mp h
        obtain ⟨rfl, rfl⟩ := pure_eq_ok.mp h
        obtain ⟨hne, hrest⟩ := ih (hcomma.proper (hreads.proper hts)) hys
        refine ⟨by simp, ?_⟩
        rw [List.map_cons, commaLexemes_cons _ (by simpa using hne)]
        exact (hreads.append hcomma).append hrest

theorem typedNames_sound {n : Nat} {vs : List TypedName} (hts : Proper ts)
    (h : typedNames n ts = .ok (vs, rest)) :
    vs ≠ [] ∧ Reads ts (TypedName.listLexemes vs) rest :=
  separated_sound typedName_sound n hts h

/-- As many items as there are in a row, each from tokens that can start one. -/
theorem many_sound {starts : Token.Kind → Bool} {item : Parser α} {lexemes : α → List Lexeme}
    {P : α → Prop}
    (hitem : ∀ {ts rest x}, Proper ts → (∃ t ∈ ts.head?, starts t.kind = true) →
      item ts = .ok (x, rest) → Reads ts (lexemes x) rest ∧ P x)
    (n : Nat) {xs : List α} (hts : Proper ts) (h : many starts item n ts = .ok (xs, rest)) :
    Reads ts (xs.flatMap lexemes) rest ∧ ∀ x ∈ xs, P x := by
  induction n generalizing ts xs with
  | zero =>
      obtain ⟨rfl, rfl⟩ := pure_eq_ok.mp h
      simp
  | succ n ih =>
      rw [many, bind_eq_ok] at h
      obtain ⟨_ | kind, mid, hkind, h⟩ := h
      · obtain ⟨rfl, rfl⟩ := pure_eq_ok.mp h
        simp [(kind?_eq_ok.mp hkind).2]
      · obtain ⟨hhead, rfl⟩ := kind?_eq_ok.mp hkind
        simp only at h
        split at h
        · next hstarts =>
            obtain ⟨x, mid, hx, h⟩ := bind_eq_ok.mp h
            obtain ⟨ys, behind, hys, h⟩ := bind_eq_ok.mp h
            obtain ⟨rfl, rfl⟩ := pure_eq_ok.mp h
            obtain ⟨t, ht, rfl⟩ := Option.map_eq_some_iff.mp hhead
            obtain ⟨hread, hP⟩ := hitem hts ⟨t, ht, hstarts⟩ hx
            obtain ⟨hreads, hall⟩ := ih (hread.proper hts) hys
            exact ⟨hread.append hreads, List.forall_mem_cons.mpr ⟨hP, hall⟩⟩
        · obtain ⟨rfl, rfl⟩ := pure_eq_ok.mp h
          simp

/-! ## Expressions -/

theorem expr_sound (n : Nat) {e : Expr} (hts : Proper ts) (h : expr n ts = .ok (e, rest)) :
    Reads ts e.lexemes rest := by
  induction n generalizing ts rest e with
  | zero => exact absurd h fail_ne_ok
  | succ n ih =>
      rw [expr, bind_eq_ok] at h
      obtain ⟨_ | t, mid, ht, h⟩ := h
      · obtain ⟨rfl, -⟩ := accept?_eq_none.mp ht
        obtain ⟨next, mid, hnext, h⟩ := bind_eq_ok.mp h
        obtain ⟨-, rfl⟩ := kind?_eq_ok.mp hnext
        split at h
        · obtain ⟨l, mid, hl, h⟩ := bind_eq_ok.mp h
          obtain ⟨rfl, rfl⟩ := pure_eq_ok.mp h
          exact literal_sound hts hl
        · exact absurd h fail_ne_ok
      · obtain ⟨rfl, hkind⟩ := accept?_eq_some.mp ht
        have hname : Reads (t :: mid) [.name t.text] mid :=
          name_eq_ok.mp (bind_eq_ok.mpr ⟨t, mid, expect_eq_ok.mpr ⟨rfl, hkind⟩, rfl⟩)
        obtain ⟨_ | p, behind, hp, h⟩ := bind_eq_ok.mp h
        · obtain ⟨rfl, rfl⟩ := pure_eq_ok.mp h
          obtain ⟨rfl, -⟩ := accept?_eq_none.mp hp
          exact hname
        · have hopen := accept?_sound (Mark.isFixed .openParen) hts.tail hp
          have hbehind := hopen.proper hts.tail
          obtain ⟨next, mid', hnext, h⟩ := bind_eq_ok.mp h
          obtain ⟨-, rfl⟩ := kind?_eq_ok.mp hnext
          have hargs : ∃ args last, Reads behind (commaLexemes (Expr.lexemesOfList args)) last ∧
              (do mark .closeParen; pure (Expr.call t.text args) : Parser Expr) last
                = .ok (e, rest) := by
            split at h
            · obtain ⟨args, last, hargs, h⟩ := bind_eq_ok.mp h
              refine ⟨args, last, ?_, h⟩
              rw [Expr.lexemesOfList_eq_map]
              exact (separated_sound ih n hbehind hargs).2
            · exact ⟨[], behind, reads_nil.mpr rfl, h⟩
          obtain ⟨args, last, hargs, h⟩ := hargs
          obtain ⟨u, last', hclose, h⟩ := bind_eq_ok.mp h
          obtain ⟨rfl, rfl⟩ := pure_eq_ok.mp h
          exact ((hname.append hopen).append hargs).append
            (mark_sound (hargs.proper hbehind) hclose)

/-- Where an opening parenthesis follows a name, the expression is a call. -/
theorem expr_isCall {n : Nat} {e : Expr} {t u : Token}
    (h : expr n (t :: u :: ts) = .ok (e, rest)) (ht : t.kind = .identifier)
    (hu : u.kind = .mark .openParen) : e.isCall = true := by
  cases n with
  | zero => exact absurd h fail_ne_ok
  | succ n =>
      rw [expr, bind_eq_ok] at h
      obtain ⟨_ | t', mid, ht', h⟩ := h
      · exact absurd (by simp [ht]) ((accept?_eq_none.mp ht').2 t rfl)
      · obtain ⟨hmid, -⟩ := accept?_eq_some.mp ht'
        cases hmid
        obtain ⟨_ | u', mid, hu', h⟩ := bind_eq_ok.mp h
        · exact absurd (by simp [hu]) ((accept?_eq_none.mp hu').2 u rfl)
        · obtain ⟨next, mid', hnext, h⟩ := bind_eq_ok.mp h
          split at h
          all_goals
            obtain ⟨args, last, -, h⟩ := bind_eq_ok.mp h
            obtain ⟨v, last', -, h⟩ := bind_eq_ok.mp h
            obtain ⟨rfl, -⟩ := pure_eq_ok.mp h
            rfl

/-! ## Statements -/

/-- A parser of blocks that reads the tokens of the block that it returns. -/
def BlockSound (block : Parser Block) : Prop :=
  ∀ {ts rest b}, Proper ts → block ts = .ok (b, rest) →
    Reads ts b.lexemes rest ∧ Block.Each Stmt.Formed b

theorem initializer?_sound {n : Nat} {value : Option Expr} (hts : Proper ts)
    (h : initializer? n ts = .ok (value, rest)) : Reads ts (initializerLexemes value) rest := by
  rw [initializer?, bind_eq_ok] at h
  obtain ⟨_ | t, mid, ht, h⟩ := h
  · obtain ⟨rfl, rfl⟩ := pure_eq_ok.mp h
    exact reads_nil.mpr (accept?_eq_none.mp ht).1
  · obtain ⟨e, behind, he, h⟩ := bind_eq_ok.mp h
    obtain ⟨rfl, rfl⟩ := pure_eq_ok.mp h
    have hgets := accept?_sound (Mark.isFixed .gets) hts ht
    exact hgets.append (expr_sound n (hgets.proper hts) he)

theorem declaration_sound {n : Nat} {s : Stmt} (hts : Proper ts)
    (h : declaration n ts = .ok (s, rest)) : Reads ts s.lexemes rest ∧ s.Each Stmt.Formed := by
  rw [declaration, bind_eq_ok] at h
  obtain ⟨u, mid, hlet, h⟩ := h
  obtain ⟨vars, mid', hvars, h⟩ := bind_eq_ok.mp h
  obtain ⟨value, behind, hvalue, h⟩ := bind_eq_ok.mp h
  obtain ⟨rfl, rfl⟩ := pure_eq_ok.mp h
  have hlet := keyword_sound hts hlet
  obtain ⟨hne, hvars⟩ := typedNames_sound (hlet.proper hts) hvars
  have hhead := hlet.append hvars
  exact ⟨hhead.append (initializer?_sound (hhead.proper hts) hvalue),
    List.forall_mem_singleton.mpr ⟨hne, trivial⟩⟩

theorem returns_sound {n : Nat} {rs : List TypedName} (hts : Proper ts)
    (h : returns n ts = .ok (rs, rest)) : Reads ts (returnsLexemes rs) rest := by
  rw [returns, bind_eq_ok] at h
  obtain ⟨_ | t, mid, ht, h⟩ := h
  · obtain ⟨rfl, rfl⟩ := pure_eq_ok.mp h
    exact reads_nil.mpr (accept?_eq_none.mp ht).1
  · have harrow := accept?_sound (Mark.isFixed .arrow) hts ht
    obtain ⟨hne, hrs⟩ := typedNames_sound (harrow.proper hts) h
    obtain ⟨r, rs', rfl⟩ := List.exists_cons_of_ne_nil hne
    exact harrow.append hrs

theorem assignment_sound {n : Nat} {s : Stmt} (hts : Proper ts)
    (h : assignment n ts = .ok (s, rest)) : Reads ts s.lexemes rest ∧ s.Each Stmt.Formed := by
  rw [assignment, bind_eq_ok] at h
  obtain ⟨targets, mid, htargets, h⟩ := h
  obtain ⟨hne, htargets⟩ := separated_sound (fun _ h => name_eq_ok.mp h) n hts htargets
  obtain ⟨_ | t, mid', ht, h⟩ := bind_eq_ok.mp h
  · exact absurd h fail_ne_ok
  · obtain ⟨value, behind, hvalue, h⟩ := bind_eq_ok.mp h
    obtain ⟨rfl, rfl⟩ := pure_eq_ok.mp h
    have hgets := htargets.append
      (accept?_sound (Mark.isFixed .gets) (htargets.proper hts) ht)
    exact ⟨hgets.append (expr_sound n (hgets.proper hts) hvalue),
      List.forall_mem_singleton.mpr ⟨hne, trivial⟩⟩

theorem assignmentOrCall_sound {n : Nat} {s : Stmt} (hts : Proper ts)
    (hstart : ∃ t ∈ ts.head?, t.kind = .identifier)
    (h : assignmentOrCall n ts = .ok (s, rest)) :
    Reads ts s.lexemes rest ∧ s.Each Stmt.Formed := by
  rw [assignmentOrCall, bind_eq_ok] at h
  obtain ⟨second, mid, hsecond, h⟩ := h
  obtain ⟨rfl, rfl⟩ := secondKind?_eq_ok.mp hsecond
  split at h
  · next hparen =>
      obtain ⟨e, behind, he, h⟩ := bind_eq_ok.mp h
      obtain ⟨rfl, rfl⟩ := pure_eq_ok.mp h
      refine ⟨expr_sound n hts he, List.forall_mem_singleton.mpr ⟨?_, trivial⟩⟩
      obtain ⟨t, ht, hkind⟩ := hstart
      obtain ⟨tail, rfl⟩ := List.head?_eq_some_iff.mp ht
      obtain ⟨u, hu, hukind⟩ := Option.map_eq_some_iff.mp hparen
      obtain ⟨tail', rfl⟩ := List.head?_eq_some_iff.mp hu
      exact expr_isCall he hkind hukind
  · exact assignment_sound hts h

section Blocks

variable {block : Parser Block} {n : Nat} {s : Stmt}

theorem definition_sound (hblock : BlockSound block) (hts : Proper ts)
    (h : definition n block ts = .ok (s, rest)) :
    Reads ts s.lexemes rest ∧ s.Each Stmt.Formed := by
  rw [definition, bind_eq_ok] at h
  obtain ⟨u, mid, hfunction, h⟩ := h
  obtain ⟨f, mid₁, hf, h⟩ := bind_eq_ok.mp h
  obtain ⟨u, mid₂, hopen, h⟩ := bind_eq_ok.mp h
  obtain ⟨next, mid₃, hnext, h⟩ := bind_eq_ok.mp h
  obtain ⟨-, rfl⟩ := kind?_eq_ok.mp hnext
  have hhead := (keyword_sound hts hfunction).append (name_eq_ok.mp hf)
  have hhead := hhead.append (mark_sound (hhead.proper hts) hopen)
  obtain ⟨params, mid₄, hparams, h⟩ : ∃ params last,
      Reads mid₂ (TypedName.listLexemes params) last ∧
        (do mark .closeParen
            let rs ← returns n
            let body ← block
            pure (.define f params rs body) : Parser Stmt) last = .ok (s, rest) := by
    split at h
    · obtain ⟨params, last, hparams, h⟩ := bind_eq_ok.mp h
      exact ⟨params, last, (typedNames_sound (hhead.proper hts) hparams).2, h⟩
    · exact ⟨[], mid₂, reads_nil.mpr rfl, h⟩
  have hhead := hhead.append hparams
  obtain ⟨u, mid₅, hclose, h⟩ := bind_eq_ok.mp h
  have hhead := hhead.append (mark_sound (hhead.proper hts) hclose)
  obtain ⟨rs, mid₆, hrs, h⟩ := bind_eq_ok.mp h
  have hhead := hhead.append (returns_sound (hhead.proper hts) hrs)
  obtain ⟨body, behind, hbody, h⟩ := bind_eq_ok.mp h
  obtain ⟨rfl, rfl⟩ := pure_eq_ok.mp h
  obtain ⟨hbody, heach⟩ := hblock (hhead.proper hts) hbody
  exact ⟨hhead.append hbody, Stmt.each_define.mpr ⟨⟨trivial, trivial⟩, heach⟩⟩

theorem branch_sound (hblock : BlockSound block) (hts : Proper ts)
    (h : branch n block ts = .ok (s, rest)) :
    Reads ts s.lexemes rest ∧ s.Each Stmt.Formed := by
  rw [branch, bind_eq_ok] at h
  obtain ⟨u, mid, hif, h⟩ := h
  obtain ⟨condition, mid₁, hcondition, h⟩ := bind_eq_ok.mp h
  obtain ⟨body, behind, hbody, h⟩ := bind_eq_ok.mp h
  obtain ⟨rfl, rfl⟩ := pure_eq_ok.mp h
  have hhead := keyword_sound hts hif
  have hhead := hhead.append (expr_sound n (hhead.proper hts) hcondition)
  obtain ⟨hbody, heach⟩ := hblock (hhead.proper hts) hbody
  exact ⟨hhead.append hbody, Stmt.each_branch.mpr ⟨⟨trivial, trivial⟩, heach⟩⟩

theorem loop_sound (hblock : BlockSound block) (hts : Proper ts)
    (h : loop n block ts = .ok (s, rest)) :
    Reads ts s.lexemes rest ∧ s.Each Stmt.Formed := by
  rw [loop, bind_eq_ok] at h
  obtain ⟨u, mid, hfor, h⟩ := h
  obtain ⟨pre, mid₁, hpre, h⟩ := bind_eq_ok.mp h
  obtain ⟨condition, mid₂, hcondition, h⟩ := bind_eq_ok.mp h
  obtain ⟨post, mid₃, hpost, h⟩ := bind_eq_ok.mp h
  obtain ⟨body, behind, hbody, h⟩ := bind_eq_ok.mp h
  obtain ⟨rfl, rfl⟩ := pure_eq_ok.mp h
  have hhead := keyword_sound hts hfor
  obtain ⟨hpre, hpreEach⟩ := hblock (hhead.proper hts) hpre
  have hhead := hhead.append hpre
  have hhead := hhead.append (expr_sound n (hhead.proper hts) hcondition)
  obtain ⟨hpost, hpostEach⟩ := hblock (hhead.proper hts) hpost
  have hhead := hhead.append hpost
  obtain ⟨hbody, hbodyEach⟩ := hblock (hhead.proper hts) hbody
  exact ⟨hhead.append hbody,
    Stmt.each_loop.mpr ⟨⟨trivial, trivial⟩, hpreEach, hpostEach, hbodyEach⟩⟩

theorem valueCase_sound (hblock : BlockSound block) {c : Case} (hts : Proper ts)
    (h : valueCase block ts = .ok (c, rest)) :
    Reads ts c.lexemesOne rest ∧ c.value.isSome = true ∧ Block.Each Stmt.Formed c.body := by
  rw [valueCase, bind_eq_ok] at h
  obtain ⟨u, mid, hcase, h⟩ := h
  obtain ⟨value, mid₁, hvalue, h⟩ := bind_eq_ok.mp h
  obtain ⟨body, behind, hbody, h⟩ := bind_eq_ok.mp h
  obtain ⟨rfl, rfl⟩ := pure_eq_ok.mp h
  have hhead := keyword_sound hts hcase
  have hhead := hhead.append (literal_sound (hhead.proper hts) hvalue)
  obtain ⟨hbody, heach⟩ := hblock (hhead.proper hts) hbody
  exact ⟨hhead.append hbody, rfl, heach⟩

theorem defaultCase_sound (hblock : BlockSound block) {cases : List Case} (hts : Proper ts)
    (h : defaultCase block ts = .ok (cases, rest)) :
    Reads ts (cases.flatMap Case.lexemesOne) rest ∧ cases.length ≤ 1 ∧
      Case.Each Stmt.Formed cases := by
  rw [defaultCase, bind_eq_ok] at h
  obtain ⟨_ | t, mid, ht, h⟩ := h
  · obtain ⟨rfl, rfl⟩ := pure_eq_ok.mp h
    exact ⟨reads_nil.mpr (accept?_eq_none.mp ht).1, by simp, Case.each_nil⟩
  · obtain ⟨body, behind, hbody, h⟩ := bind_eq_ok.mp h
    obtain ⟨rfl, rfl⟩ := pure_eq_ok.mp h
    have hhead := accept?_sound (Keyword.isFixed .defaultK) hts ht
    obtain ⟨hbody, heach⟩ := hblock (hhead.proper hts) hbody
    refine ⟨?_, by simp, Case.each_cons.mpr ⟨heach, Case.each_nil⟩⟩
    rw [List.flatMap_cons, List.flatMap_nil, List.append_nil]
    exact hhead.append hbody

theorem switch_sound (hblock : BlockSound block) (hts : Proper ts)
    (h : switch n block ts = .ok (s, rest)) :
    Reads ts s.lexemes rest ∧ s.Each Stmt.Formed := by
  rw [switch, bind_eq_ok] at h
  obtain ⟨u, mid, hswitch, h⟩ := h
  obtain ⟨scrutinee, mid₁, hscrutinee, h⟩ := bind_eq_ok.mp h
  obtain ⟨cases, mid₂, hcases, h⟩ := bind_eq_ok.mp h
  obtain ⟨default, mid₃, hdefault, h⟩ := bind_eq_ok.mp h
  split at h
  · exact absurd h fail_ne_ok
  · next hne =>
      obtain ⟨rfl, rfl⟩ := pure_eq_ok.mp h
      have hhead := keyword_sound hts hswitch
      have hhead := hhead.append (expr_sound n (hhead.proper hts) hscrutinee)
      obtain ⟨hcases, hvalues⟩ :=
        many_sound (fun hts _ h => valueCase_sound hblock hts h) n (hhead.proper hts) hcases
      obtain ⟨hdefault, hlength, heach⟩ :=
        defaultCase_sound hblock (hcases.proper (hhead.proper hts)) hdefault
      constructor
      · rw [Stmt.lexemes, Case.lexemes_eq_flatMap, List.flatMap_append]
        exact hhead.append (hcases.append hdefault)
      · have hlast : Stmt.DefaultLast (.switch scrutinee (cases ++ default)) := by
          refine ⟨by simpa using hne, fun c hc => (hvalues c ?_).1⟩
          -- The default case, if there is one, is the last of all cases.
          match default, hlength with
          | [], _ =>
              rw [List.append_nil] at hc
              exact List.dropLast_subset _ hc
          | [c'], _ => rwa [List.dropLast_concat] at hc
        refine Stmt.each_switch.mpr ⟨⟨trivial, hlast⟩, Case.each_iff.mpr fun c hc => ?_⟩
        rcases List.mem_append.mp hc with hc | hc
        · exact (hvalues c hc).2
        · exact Case.each_iff.mp heach c hc

theorem startsStmt_iff {k : Token.Kind} :
    startsStmt k = true ↔ k = .mark .openBrace ∨ k = .keyword .letK ∨ k = .keyword .functionK ∨
      k = .keyword .ifK ∨ k = .keyword .switchK ∨ k = .keyword .forK ∨ k = .keyword .breakK ∨
      k = .keyword .continueK ∨ k = .keyword .leaveK ∨ k = .identifier := by
  cases k with
  | keyword k => cases k <;> decide
  | mark m => cases m <;> decide
  | _ => decide

theorem stmt_sound (hblock : BlockSound block) (hts : Proper ts)
    (hstart : ∃ t ∈ ts.head?, startsStmt t.kind = true) (h : stmt n block ts = .ok (s, rest)) :
    Reads ts s.lexemes rest ∧ s.Each Stmt.Formed := by
  rw [stmt, bind_eq_ok] at h
  obtain ⟨kind, mid, hkind, h⟩ := h
  obtain ⟨rfl, rfl⟩ := kind?_eq_ok.mp hkind
  obtain ⟨t, ht, hstarts⟩ := hstart
  rw [ht, Option.map_some] at h
  rcases startsStmt_iff.mp hstarts with hk | hk | hk | hk | hk | hk | hk | hk | hk | hk <;>
    rw [hk] at h
  · obtain ⟨body, behind, hbody, h⟩ := bind_eq_ok.mp h
    obtain ⟨rfl, rfl⟩ := pure_eq_ok.mp h
    obtain ⟨hbody, heach⟩ := hblock hts hbody
    exact ⟨hbody, Stmt.each_block.mpr ⟨⟨trivial, trivial⟩, heach⟩⟩
  · exact declaration_sound hts h
  · exact definition_sound hblock hts h
  · exact branch_sound hblock hts h
  · exact switch_sound hblock hts h
  · exact loop_sound hblock hts h
  -- The three statements that are one keyword.
  iterate 3
    · obtain ⟨u, behind, hu, h⟩ := bind_eq_ok.mp h
      obtain ⟨rfl, rfl⟩ := pure_eq_ok.mp h
      exact ⟨keyword_sound hts hu, List.forall_mem_singleton.mpr ⟨trivial, trivial⟩⟩
  · exact assignmentOrCall_sound hts ⟨t, ht, hk⟩ h

end Blocks

/-- A block is read with the tokens between its braces. -/
theorem block_sound (n : Nat) : BlockSound (block n) := by
  induction n with
  | zero => exact fun _ h => absurd h fail_ne_ok
  | succ n ih =>
      intro ts rest b hts h
      rw [block, bind_eq_ok] at h
      obtain ⟨u, mid, hopen, h⟩ := h
      obtain ⟨body, mid₁, hbody, h⟩ := bind_eq_ok.mp h
      obtain ⟨u, mid₂, hclose, h⟩ := bind_eq_ok.mp h
      obtain ⟨rfl, rfl⟩ := pure_eq_ok.mp h
      have hhead := mark_sound hts hopen
      obtain ⟨hbody, heach⟩ := many_sound (stmt_sound ih) n (hhead.proper hts) hbody
      have hhead := hhead.append hbody
      have hall := hhead.append (mark_sound (hhead.proper hts) hclose)
      rw [← Block.innerLexemes_eq_flatMap] at hall
      exact ⟨hall, Block.each_iff.mpr heach⟩

end Parser

end SwitchHoist
