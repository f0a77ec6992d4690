import SwitchHoist.Proofs.ParserSteps

/-!
# Parsers go by the kinds and texts of tokens

A parser looks at what its tokens are and how they are spelled, and not at their places.  On two
lists of tokens that are spelled alike it does the same: it takes equally many tokens and returns
the same value, or it fails of the same expectation behind equally many tokens.

The same holds of a parser and itself with another bound, as long as neither bound is below the
number of tokens, `Parser.block_agree`.  A block takes a token before it reads what is inside, and
so do a statement and an item of a list; the bound goes down by one where at least one token has
been taken.  So it only reaches zero where no token is left, and a parser without a bound would
come to an end as well.
-/

namespace SwitchHoist

namespace Parser

variable {α β : Type}

/-- What two parsers make of two lists of tokens: both take equally many of them, at least `k`, and
return the same value, or both fail of the same expectation behind equally many of them. -/
inductive Alike (k : Nat) (ts us : List Token) :
    Except Failure (α × List Token) → Except Failure (α × List Token) → Prop where
  | ok (x : α) (i : Nat) : k ≤ i → i ≤ ts.length →
      Alike k ts us (.ok (x, ts.drop i)) (.ok (x, us.drop i))
  | error (expected : Expectation) (i : Nat) : i ≤ ts.length →
      Alike k ts us (.error ⟨expected, ts.drop i⟩) (.error ⟨expected, us.drop i⟩)

namespace Alike

variable {k l i : Nat} {ts us : List Token} {P Q : Except Failure (α × List Token)}

theorem mono (h : Alike k ts us P Q) (hl : l ≤ k) : Alike l ts us P Q := by
  cases h with
  | ok x i hk hi => exact .ok x i (Nat.le_trans hl hk) hi
  | error expected i hi => exact .error expected i hi

/-- What is done behind some tokens is done on all of them. -/
theorem behind (h : Alike l (ts.drop i) (us.drop i) P Q) (hk : k ≤ i) (hi : i ≤ ts.length) :
    Alike (k + l) ts us P Q := by
  cases h with
  | ok x j hl hj =>
      rw [List.length_drop] at hj
      rw [List.drop_drop, List.drop_drop]
      exact .ok x (i + j) (by omega) (by omega)
  | error expected j hj =>
      rw [List.length_drop] at hj
      rw [List.drop_drop, List.drop_drop]
      exact .error expected (i + j) (by omega)

theorem bind {f g : α → Parser β} (h : Alike k ts us P Q)
    (hf : ∀ x i, k ≤ i → i ≤ ts.length →
      Alike l (ts.drop i) (us.drop i) (f x (ts.drop i)) (g x (us.drop i))) :
    Alike (k + l) ts us (P >>= fun r => f r.1 r.2) (Q >>= fun r => g r.1 r.2) := by
  cases h with
  | ok x i hk hi => exact (hf x i hk hi).behind hk hi
  | error expected i hi => exact .error expected i hi

/-- On the same tokens, parsers that do alike do the same. -/
theorem eq (h : Alike k ts ts P Q) : P = Q := by
  cases h <;> rfl

end Alike

/-- Two parsers do alike on tokens that are spelled alike, if there are at most `n` of them. -/
def Agree (n k : Nat) (p q : Parser α) : Prop :=
  ∀ ts us : List Token, ts.map Token.lexeme = us.map Token.lexeme → ts.length ≤ n →
    Alike k ts us (p ts) (q us)

theorem kinds_eq {ts us : List Token} (h : ts.map Token.lexeme = us.map Token.lexeme) :
    ts.map Token.kind = us.map Token.kind := by
  have hkinds := congrArg (List.map Lexeme.kind) h
  rwa [List.map_map, List.map_map] at hkinds

theorem literalValue_eq {t u : Token} (h : t.lexeme = u.lexeme) :
    literalValue t = literalValue u := by
  obtain ⟨hkind, htext⟩ := Lexeme.mk.inj h
  unfold literalValue
  rw [hkind, htext]

namespace Agree

variable {n m k l : Nat} {p q : Parser α}

theorem mono (h : Agree n k p q) (hm : m ≤ n) (hl : l ≤ k) : Agree m l p q :=
  fun ts us hlexemes hlength => (h ts us hlexemes (Nat.le_trans hlength hm)).mono hl

theorem fewer (h : Agree n k p q) (hm : m ≤ n) : Agree m k p q :=
  h.mono hm (Nat.le_refl k)

/-- However many tokens are taken. -/
theorem any (h : Agree n k p q) : Agree n 0 p q :=
  h.mono (Nat.le_refl n) (Nat.zero_le k)

/-- Where no token is left there is one case. -/
theorem zero (h : Alike k [] [] (p []) (q [])) : Agree 0 k p q := by
  intro ts us hlexemes hlength
  obtain rfl := List.length_eq_zero_iff.mp (Nat.le_zero.mp hlength)
  obtain rfl := List.map_eq_nil_iff.mp hlexemes.symm
  exact h

theorem pure (n : Nat) (x : α) : Agree n 0 (pure x : Parser α) (pure x) :=
  fun ts us _ _ => (.ok x 0 (Nat.le_refl _) (Nat.zero_le _) : Alike 0 ts us _ _)

theorem fail (n k : Nat) (expected : Expectation) :
    Agree n k (fail expected : Parser α) (fail expected) :=
  fun ts us _ _ => (.error expected 0 (Nat.zero_le _) : Alike k ts us _ _)

theorem ite {c : Prop} [Decidable c] {p' q' : Parser α} (h : Agree n k p q)
    (h' : Agree n k p' q') : Agree n k (if c then p else p') (if c then q else q') := by
  split
  · exact h
  · exact h'

/-- One parser after another, where the second has fewer tokens. -/
theorem bind_rest {f g : α → Parser β} (h : Agree n k p q)
    (hf : ∀ x, Agree (n - k) l (f x) (g x)) : Agree n (k + l) (p >>= f) (q >>= g) := by
  intro ts us hlexemes hlength
  refine (h ts us hlexemes hlength).bind fun x i hk hi => hf x _ _ ?_ ?_
  · rw [List.map_drop, List.map_drop, hlexemes]
  · rw [List.length_drop]
    omega

theorem bind {f g : α → Parser β} (h : Agree n k p q) (hf : ∀ x, Agree n 0 (f x) (g x)) :
    Agree n k (p >>= f) (q >>= g) :=
  h.bind_rest fun x => (hf x).fewer (Nat.sub_le ..)

theorem bind_succ {f g : α → Parser β} (h : Agree (n + 1) 1 p q)
    (hf : ∀ x, Agree n 0 (f x) (g x)) : Agree (n + 1) 1 (p >>= f) (q >>= g) :=
  h.bind_rest hf

/-- Without tokens a parser that takes one fails. -/
theorem bind_zero {f g : α → Parser β} (h : Agree 0 1 p q) : Agree 0 1 (p >>= f) (q >>= g) := by
  intro ts us hlexemes hlength
  have hnone : ∀ i, 1 ≤ i → ¬i ≤ ts.length := fun i hk hi => by omega
  exact ((h ts us hlexemes hlength).bind fun x i hk hi => absurd hi (hnone i hk) :
    Alike (1 + 0) ts us _ _)

section Tokens

variable {kind : Token.Kind}

/-- A parser that only looks at the tokens sees the same in tokens that are spelled alike. -/
theorem look {γ : Type} (see : List Token → γ)
    (hsee : ∀ ts us, ts.map Token.lexeme = us.map Token.lexeme → see ts = see us)
    {f g : γ → Parser β}
    (h : ∀ ts, ts.length ≤ n → Agree ts.length k (f (see ts)) (g (see ts))) :
    Agree n k ((fun ts => .ok (see ts, ts) : Parser γ) >>= f)
      ((fun ts => .ok (see ts, ts) : Parser γ) >>= g) := by
  intro ts us hlexemes hlength
  change Alike k ts us (f (see ts) ts) (g (see us) us)
  rw [← hsee ts us hlexemes]
  exact h ts hlength ts us hlexemes (Nat.le_refl _)

theorem bound {f g : Nat → Parser β} (h : ∀ N, N ≤ n → Agree N k (f N) (g N)) :
    Agree n k (bound >>= f) (bound >>= g) := by
  refine look List.length (fun ts us hlexemes => ?_) fun ts hlength => h ts.length hlength
  simpa using congrArg List.length hlexemes

theorem kind? {f g : Option Token.Kind → Parser β} (h : ∀ o, Agree n k (f o) (g o)) :
    Agree n k (kind? >>= f) (kind? >>= g) := by
  refine look (fun ts => ts.head?.map Token.kind) (fun ts us hlexemes => ?_)
    fun ts hlength => (h _).fewer hlength
  rw [← List.head?_map, ← List.head?_map, kinds_eq hlexemes]

theorem secondKind? {f g : Option Token.Kind → Parser β} (h : ∀ o, Agree n k (f o) (g o)) :
    Agree n k (secondKind? >>= f) (secondKind? >>= g) := by
  refine look (fun ts => ts.tail.head?.map Token.kind) (fun ts us hlexemes => ?_)
    fun ts hlength => (h _).fewer hlength
  rw [← List.head?_map, ← List.head?_map, List.map_tail, List.map_tail, kinds_eq hlexemes]

/-- What follows an optional token may use its text, and has one token less if it is there. -/
theorem accept? {f g : Option Token → Parser β}
    (hsome : ∀ t u, t.lexeme = u.lexeme → Agree (n - 1) (k - 1) (f (some t)) (g (some u)))
    (hnone : Agree n k (f none) (g none)) :
    Agree n k (accept? kind >>= f) (accept? kind >>= g) := by
  intro ts us hlexemes hlength
  match ts, us, hlexemes with
  | [], [], _ => exact hnone [] [] rfl hlength
  | t :: ts, u :: us, hlexemes =>
      obtain ⟨hlexeme, hrest⟩ := List.cons.inj hlexemes
      have hkind : t.kind = u.kind := (Lexeme.mk.inj hlexeme).1
      change Alike k (t :: ts) (u :: us) (Parser.accept? kind (t :: ts) >>= fun r => f r.1 r.2)
        (Parser.accept? kind (u :: us) >>= fun r => g r.1 r.2)
      by_cases ht : t.kind = kind
      · have hleft : Parser.accept? kind (t :: ts) = .ok (some t, ts) := if_pos ht
        have hright : Parser.accept? kind (u :: us) = .ok (some u, us) := if_pos (hkind ▸ ht)
        rw [hleft, hright]
        have hcount : ts.length ≤ n - 1 := Nat.le_sub_one_of_lt hlength
        have hbehind : Alike (1 + (k - 1)) (t :: ts) (u :: us) (f (some t) ts) (g (some u) us) :=
          Alike.behind (i := 1) (hsome t u hlexeme ts us hrest hcount) (Nat.le_refl 1)
            (Nat.succ_le_succ (Nat.zero_le _))
        exact hbehind.mono (by omega)
      · have hleft : Parser.accept? kind (t :: ts) = .ok (none, t :: ts) := if_neg ht
        have hright : Parser.accept? kind (u :: us) = .ok (none, u :: us) := if_neg (hkind ▸ ht)
        rw [hleft, hright]
        exact hnone _ _ hlexemes hlength

theorem expect {f g : Token → Parser β}
    (h : ∀ t u, t.lexeme = u.lexeme → Agree (n - 1) (k - 1) (f t) (g u)) :
    Agree n k (expect kind >>= f) (expect kind >>= g) := by
  rw [Parser.expect, bind_assoc, bind_assoc]
  exact accept? h (fail n k (.token kind))

theorem expect_succ {f g : Token → Parser β}
    (h : ∀ t u, t.lexeme = u.lexeme → Agree n 0 (f t) (g u)) :
    Agree n 1 (Parser.expect kind >>= f) (Parser.expect kind >>= g) :=
  expect fun t u htu => (h t u htu).fewer (Nat.sub_le ..)

theorem mark (n : Nat) (m : Mark) : Agree n 1 (mark m) (mark m) :=
  expect_succ fun _ _ _ => pure n ()

theorem keyword (n : Nat) (key : Keyword) : Agree n 1 (keyword key) (keyword key) :=
  expect_succ fun _ _ _ => pure n ()

end Tokens

section Items

variable {N : Nat}

/-- Parsers with bounds do alike if they do without tokens, and with a token more where both bounds
are one more. -/
theorem of_bounds {p q : Nat → Parser α} (hzero : ∀ n m, Alike k [] [] (p n []) (q m []))
    (hsucc : ∀ M n m, M < N → M ≤ n → M ≤ m → Agree M k (p n) (q m) →
      Agree (M + 1) k (p (n + 1)) (q (m + 1)))
    (hn : N ≤ n) (hm : N ≤ m) : Agree N k (p n) (q m) := by
  induction N generalizing n m with
  | zero => exact zero (hzero n m)
  | succ N ih =>
      obtain ⟨n, rfl⟩ := Nat.exists_eq_add_one_of_ne_zero (Nat.ne_zero_of_lt hn)
      obtain ⟨m, rfl⟩ := Nat.exists_eq_add_one_of_ne_zero (Nat.ne_zero_of_lt hm)
      have hn : N ≤ n := Nat.le_of_succ_le_succ hn
      have hm : N ≤ m := Nat.le_of_succ_le_succ hm
      refine hsucc N n m (Nat.lt_succ_self N) hn hm (ih ?_ hn hm)
      exact fun M n m hM => hsucc M n m (Nat.lt_succ_of_lt hM)

/-- No more items can follow than there are tokens. -/
theorem many {starts : Token.Kind → Bool} (hitem : Agree N 1 p q) (hn : N ≤ n) (hm : N ≤ m) :
    Agree N 0 (many starts p n) (many starts q m) := by
  have hnil : ∀ (item : Parser α) (n : Nat), Parser.many starts item n [] = .ok ([], []) :=
    fun item n => by cases n <;> rfl
  refine of_bounds (fun n m => ?_) (fun M n m hM _ _ hrest => kind? fun o => ?_) hn hm
  · rw [hnil, hnil]
    exact .ok [] 0 (Nat.le_refl _) (Nat.le_refl _)
  · cases o with
    | none => exact pure _ []
    | some kind =>
        refine ite ?_ (pure _ [])
        exact ((hitem.fewer hM).bind_succ fun x => hrest.bind fun xs => pure _ _).any

theorem separated (hitem : Agree N 1 p q) (hn : N ≤ n) (hm : N ≤ m) :
    Agree N 1 (separated p n) (separated q m) := by
  refine of_bounds (fun n m => ?_) (fun M n m hM _ _ hrest => ?_) hn hm
  · have hnone := hitem.fewer (Nat.zero_le N)
    cases n <;> cases m <;> exact hnone.bind_zero [] [] rfl (Nat.le_refl _)
  · refine (hitem.fewer hM).bind_succ fun x => accept? (fun _ _ _ => ?_) (pure M [x])
    exact (hrest.any.fewer (Nat.sub_le ..)).bind fun xs => pure _ _

end Items

end Agree

/-! ## The productions

Each does alike on tokens that are spelled alike, whatever bounds it has, as long as there are no
more tokens than that. -/

section Productions

variable {n m N : Nat}

theorem name_agree (n : Nat) : Agree n 1 name name := by
  refine Agree.expect_succ fun t u htu => ?_
  rw [(Lexeme.mk.inj htu).2]
  exact .pure n u.text

theorem typ?_agree (n : Nat) : Agree n 0 typ? typ? := by
  refine Agree.accept? (fun _ _ _ => ?_) (.pure n none)
  exact (name_agree _).any.bind fun typ => .pure _ _

theorem typedName_agree (n : Nat) : Agree n 1 typedName typedName :=
  (name_agree n).bind fun _ => (typ?_agree n).bind fun _ => .pure n _

theorem typedNames_agree (hn : N ≤ n) (hm : N ≤ m) : Agree N 1 (typedNames n) (typedNames m) :=
  (typedName_agree N).separated hn hm

theorem literal_agree (n : Nat) : Agree n 1 literal literal := by
  refine Agree.kind? fun o => ?_
  cases o with
  | none => exact .fail n 1 .literal
  | some kind =>
      cases hkind : literalKind? kind with
      | none =>
          simp only [hkind]
          exact .fail n 1 .literal
      | some k =>
          simp only [hkind]
          refine Agree.expect_succ fun t u htu => ?_
          rw [literalValue_eq htu]
          exact (typ?_agree n).bind fun typ => .pure n _

/-- An expression, and the arguments of a call. -/
theorem expr_agree (hn : N ≤ n) (hm : N ≤ m) : Agree N 1 (expr n) (expr m) := by
  have hnil : ∀ n : Nat, expr n [] = .error ⟨.expression, []⟩ := fun n => by cases n <;> rfl
  refine Agree.of_bounds (fun n m => ?_) (fun M n m _ hn hm hexpr => ?_) hn hm
  · rw [hnil, hnil]
    exact .error .expression 0 (Nat.le_refl _)
  · have hargs := (hexpr.separated hn hm).any
    refine Agree.accept? (fun t u htu => ?_) (Agree.kind? fun next => ?_)
    · have hclose : ∀ args : List Expr, Agree M 0
          (mark .closeParen >>= fun _ => Pure.pure (Expr.call t.text args))
          (mark .closeParen >>= fun _ => Pure.pure (Expr.call u.text args)) := fun args => by
        rw [(Lexeme.mk.inj htu).2]
        exact (Agree.mark M .closeParen).any.bind fun _ => .pure M _
      have hvariable : Agree M 0 (Pure.pure (Expr.variable t.text) : Parser Expr)
          (Pure.pure (.variable u.text)) := by
        rw [(Lexeme.mk.inj htu).2]
        exact .pure M _
      refine Agree.accept? (fun _ _ _ => Agree.kind? fun next => ?_) hvariable
      exact ((hargs.bind hclose).ite ((Agree.pure M []).bind hclose)).fewer (Nat.sub_le ..)
    · exact ((literal_agree _).bind fun l => .pure _ _).ite (.fail _ 1 .expression)

theorem initializer?_agree (hn : N ≤ n) (hm : N ≤ m) :
    Agree N 0 (initializer? n) (initializer? m) := by
  refine Agree.accept? (fun _ _ _ => ?_) (.pure N none)
  exact ((expr_agree hn hm).any.bind fun e => .pure N _).fewer (Nat.sub_le ..)

theorem declaration_agree (hn : N ≤ n) (hm : N ≤ m) :
    Agree N 1 (declaration n) (declaration m) :=
  (Agree.keyword N .letK).bind fun _ => (typedNames_agree hn hm).any.bind fun _ =>
    (initializer?_agree hn hm).bind fun _ => .pure N _

theorem returns_agree (hn : N ≤ n) (hm : N ≤ m) : Agree N 0 (returns n) (returns m) :=
  Agree.accept? (fun _ _ _ => (typedNames_agree hn hm).any.fewer (Nat.sub_le ..)) (.pure N [])

theorem assignment_agree (hn : N ≤ n) (hm : N ≤ m) : Agree N 1 (assignment n) (assignment m) := by
  refine ((name_agree N).separated hn hm).bind fun targets => ?_
  refine Agree.accept? (fun _ _ _ => ?_) (.fail N 0 .getsOrCall)
  exact ((expr_agree hn hm).any.bind fun e => .pure N _).fewer (Nat.sub_le ..)

theorem assignmentOrCall_agree (hn : N ≤ n) (hm : N ≤ m) :
    Agree N 1 (assignmentOrCall n) (assignmentOrCall m) := by
  refine Agree.secondKind? fun o => ?_
  exact ((expr_agree hn hm).bind fun e => .pure N _).ite (assignment_agree hn hm)

/-! Statements, with the parsers that read their blocks. -/

variable {b c : Parser Block}

theorem definition_agree (hn : N ≤ n) (hm : N ≤ m) (hbc : Agree N 1 b c) :
    Agree N 1 (definition n b) (definition m c) := by
  have hbody : ∀ (f : String) (params : List TypedName), Agree N 0
      (mark .closeParen >>= fun _ => returns n >>= fun rs => b >>= fun body =>
        pure (Stmt.define f params rs body))
      (mark .closeParen >>= fun _ => returns m >>= fun rs => c >>= fun body =>
        pure (Stmt.define f params rs body)) := fun f params =>
    (Agree.mark N .closeParen).any.bind fun _ => (returns_agree hn hm).bind fun rs =>
      hbc.any.bind fun body => .pure N _
  refine (Agree.keyword N .functionK).bind fun _ => (name_agree N).any.bind fun f => ?_
  refine (Agree.mark N .openParen).any.bind fun _ => Agree.kind? fun next => ?_
  exact ((typedNames_agree hn hm).any.bind (hbody f)).ite ((Agree.pure N []).bind (hbody f))

theorem branch_agree (hn : N ≤ n) (hm : N ≤ m) (hbc : Agree N 1 b c) :
    Agree N 1 (branch n b) (branch m c) :=
  (Agree.keyword N .ifK).bind fun _ => (expr_agree hn hm).any.bind fun _ =>
    hbc.any.bind fun _ => .pure N _

theorem valueCase_agree (hbc : Agree N 1 b c) : Agree N 1 (valueCase b) (valueCase c) :=
  (Agree.keyword N .caseK).bind fun _ => (literal_agree N).any.bind fun _ =>
    hbc.any.bind fun _ => .pure N _

theorem defaultCase_agree (hbc : Agree N 1 b c) : Agree N 0 (defaultCase b) (defaultCase c) :=
  Agree.accept? (fun _ _ _ => (hbc.any.bind fun _ => .pure N _).fewer (Nat.sub_le ..)) (.pure N [])

theorem switch_agree (hn : N ≤ n) (hm : N ≤ m) (hbc : Agree N 1 b c) :
    Agree N 1 (switch n b) (switch m c) := by
  refine (Agree.keyword N .switchK).bind fun _ => (expr_agree hn hm).any.bind fun scrutinee => ?_
  refine ((valueCase_agree hbc).many hn hm).bind fun cases => ?_
  refine (defaultCase_agree hbc).bind fun default => ?_
  exact (Agree.fail N 0 .caseOrDefault).ite (.pure N _)

theorem loop_agree (hn : N ≤ n) (hm : N ≤ m) (hbc : Agree N 1 b c) :
    Agree N 1 (loop n b) (loop m c) :=
  (Agree.keyword N .forK).bind fun _ => hbc.any.bind fun _ => (expr_agree hn hm).any.bind fun _ =>
    hbc.any.bind fun _ => hbc.any.bind fun _ => .pure N _

theorem stmt_agree (hn : N ≤ n) (hm : N ≤ m) (hbc : Agree N 1 b c) :
    Agree N 1 (stmt n b) (stmt m c) := by
  refine Agree.kind? fun o => ?_
  split
  · exact hbc.bind fun body => .pure N _
  · exact declaration_agree hn hm
  · exact definition_agree hn hm hbc
  · exact branch_agree hn hm hbc
  · exact switch_agree hn hm hbc
  · exact loop_agree hn hm hbc
  · exact (Agree.keyword N .breakK).bind fun _ => .pure N _
  · exact (Agree.keyword N .continueK).bind fun _ => .pure N _
  · exact (Agree.keyword N .leaveK).bind fun _ => .pure N _
  · exact assignmentOrCall_agree hn hm

/-- A block, whose statements have a token less to read than it has. -/
theorem block_agree (hn : N ≤ n) (hm : N ≤ m) : Agree N 1 (block n) (block m) := by
  have hnil : ∀ n : Nat, block n [] = .error ⟨.token (.mark .openBrace), []⟩ :=
    fun n => by cases n <;> rfl
  refine Agree.of_bounds (fun n m => ?_) (fun M n m _ hn hm hblock => ?_) hn hm
  · rw [hnil, hnil]
    exact .error _ 0 (Nat.le_refl _)
  · refine (Agree.mark (M + 1) .openBrace).bind_succ fun _ => ?_
    refine ((stmt_agree hn hm hblock).many hn hm).bind fun body => ?_
    exact (Agree.mark M .closeBrace).any.bind fun _ => .pure M _

/-- A block with nothing behind it, whose bound is the number of its tokens. -/
theorem program_agree (n : Nat) : Agree n 1 program program := by
  refine Agree.bound fun N _ => ?_
  refine (block_agree (Nat.le_refl N) (Nat.le_refl N)).bind fun b => Agree.kind? fun o => ?_
  cases o with
  | none => exact .pure N b
  | some kind => exact .fail N 0 .endOfInput

end Productions

end Parser

/-! ## Moved tokens -/

/-- The same error at another token. -/
def ParseError.mapToken (f : Token → Token) : ParseError → ParseError
  | .atToken t expected => .atToken (f t) expected
  | .lex e => .lex e
  | .noTokens => .noTokens
  | .atEnd expected => .atEnd expected

theorem ParseError.ofFailure_map (f : Token → Token) (expected : Expectation) (ts : List Token) :
    ofFailure ⟨expected, ts.map f⟩ = (ofFailure ⟨expected, ts⟩).mapToken f := by
  cases ts <;> rfl

/-- Tokens that are moved elsewhere spell the same program, or the same error at the token that was
moved. -/
theorem Block.ofTokens_map {f : Token → Token} (hf : ∀ t, (f t).lexeme = t.lexeme)
    (ts : List Token) :
    ofTokens (ts.map f) = (ofTokens ts).mapError (ParseError.mapToken f) := by
  have hlexemes : ts.map Token.lexeme = (ts.map f).map Token.lexeme := by
    simp [hf]
  have halike := Parser.program_agree ts.length ts (ts.map f) hlexemes (Nat.le_refl _)
  unfold ofTokens
  rw [List.isEmpty_map]
  split
  · rfl
  · simp only [StateT.run]
    generalize Parser.program ts = P at halike ⊢
    generalize Parser.program (ts.map f) = Q at halike ⊢
    cases halike with
    | ok b i hi => rfl
    | error expected i hi =>
        rw [← List.map_drop]
        exact congrArg Except.error (ParseError.ofFailure_map f expected (ts.drop i))

end SwitchHoist
