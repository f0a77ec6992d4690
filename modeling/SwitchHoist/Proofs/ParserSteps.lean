import SwitchHoist.Program.Parser
import SwitchHoist.Proofs.Tokenizing

/-!
# What the steps of a parser do

A parser succeeds if its steps do, one after another, each on the tokens that the one before
it has left.  What the single steps take is said with the lexemes that they read.
-/

namespace SwitchHoist

/-- Tokens that start with the given lexemes, and the tokens behind these. -/
def Reads (ts : List Token) (ls : List Lexeme) (rest : List Token) : Prop :=
  ∃ front, ts = front ++ rest ∧ front.map Token.lexeme = ls

section Reads

variable {ts rest : List Token} {l : Lexeme} {ls ms : List Lexeme}

@[simp] theorem reads_nil : Reads ts [] rest ↔ ts = rest := by
  simp [Reads]

@[simp] theorem reads_cons :
    Reads ts (l :: ls) rest ↔ ∃ t mid, ts = t :: mid ∧ t.lexeme = l ∧ Reads mid ls rest := by
  constructor
  · rintro ⟨_ | ⟨t, front⟩, rfl, hfront⟩
    · cases hfront
    · rw [List.map_cons, List.cons.injEq] at hfront
      exact ⟨t, front ++ rest, rfl, hfront.1, front, rfl, hfront.2⟩
  · rintro ⟨t, mid, rfl, rfl, front, rfl, rfl⟩
    exact ⟨t :: front, rfl, rfl⟩

@[simp] theorem reads_append :
    Reads ts (ls ++ ms) rest ↔ ∃ mid, Reads ts ls mid ∧ Reads mid ms rest := by
  induction ls generalizing ts with
  | nil => simp
  | cons l ls ih =>
      simp only [List.cons_append, reads_cons, ih]
      constructor
      · rintro ⟨t, tail, rfl, hl, mid, htail, hmid⟩
        exact ⟨mid, ⟨t, tail, rfl, hl, htail⟩, hmid⟩
      · rintro ⟨mid, ⟨t, tail, rfl, hl, htail⟩, hmid⟩
        exact ⟨t, tail, rfl, hl, mid, htail, hmid⟩

theorem Reads.append {mid : List Token} (h : Reads ts ls mid) (h' : Reads mid ms rest) :
    Reads ts (ls ++ ms) rest :=
  reads_append.mpr ⟨mid, h, h'⟩

/-- The tokens behind those that were read are among all tokens. -/
theorem Reads.forall_rest {P : Token → Prop} (h : Reads ts ls rest) (hts : ∀ t ∈ ts, P t) :
    ∀ t ∈ rest, P t := by
  obtain ⟨front, rfl, -⟩ := h
  exact fun t ht => hts t (List.mem_append_right front ht)

end Reads

/-- Tokens that do not start with one of these kinds. -/
def NoneOf (kinds : List Token.Kind) (ts : List Token) : Prop :=
  ∀ t ∈ ts.head?, t.kind ∉ kinds

theorem NoneOf.mono {kinds kinds' : List Token.Kind} {ts : List Token} (h : NoneOf kinds ts)
    (hsub : kinds' ⊆ kinds) : NoneOf kinds' ts :=
  fun t ht hkind => h t ht (hsub hkind)

theorem Reads.noneOf {ts rest : List Token} {l : Lexeme} {ls : List Lexeme}
    (h : Reads ts (l :: ls) rest) {kinds : List Token.Kind} (hl : l.kind ∉ kinds) :
    NoneOf kinds ts := by
  obtain ⟨t, mid, rfl, rfl, -⟩ := reads_cons.mp h
  intro u hu
  cases hu
  exact hl

namespace Parser

variable {α β : Type} {ts rest : List Token}

theorem bind_eq_ok {p : Parser α} {f : α → Parser β} {y : β} :
    (p >>= f) ts = .ok (y, rest) ↔
      ∃ x mid, p ts = .ok (x, mid) ∧ f x mid = .ok (y, rest) := by
  change (p ts >>= fun r => f r.1 r.2) = _ ↔ _
  cases p ts with
  | error e => simp [bind, Except.bind]
  | ok r =>
      constructor
      · exact fun h => ⟨r.1, r.2, rfl, h⟩
      · rintro ⟨x, mid, hr, h⟩
        cases hr
        exact h

theorem pure_eq_ok {x y : α} : (pure x : Parser α) ts = .ok (y, rest) ↔ x = y ∧ ts = rest := by
  change Except.ok (x, ts) = .ok (y, rest) ↔ _
  simp

theorem fail_ne_ok {expected : Expectation} {x : α} :
    (fail expected : Parser α) ts ≠ .ok (x, rest) :=
  fun h => nomatch h

theorem kind?_eq_ok {k : Option Token.Kind} :
    kind? ts = .ok (k, rest) ↔ ts.head?.map Token.kind = k ∧ ts = rest := by
  simp [kind?]

theorem secondKind?_eq_ok {k : Option Token.Kind} :
    secondKind? ts = .ok (k, rest) ↔ ts.tail.head?.map Token.kind = k ∧ ts = rest := by
  simp [secondKind?]

theorem accept?_eq_some {kind : Token.Kind} {t : Token} :
    accept? kind ts = .ok (some t, rest) ↔ ts = t :: rest ∧ t.kind = kind := by
  cases ts with
  | nil => simp [accept?]
  | cons u us =>
      by_cases hu : u.kind = kind
      · simp only [accept?, hu, if_true]
        simp
        grind
      · simp [accept?, hu]
        grind

theorem accept?_eq_none {kind : Token.Kind} :
    accept? kind ts = .ok (none, rest) ↔ ts = rest ∧ NoneOf [kind] ts := by
  cases ts with
  | nil => simp [accept?, NoneOf, eq_comm]
  | cons u us =>
      by_cases hu : u.kind = kind <;> simp [accept?, NoneOf, hu]

theorem expect_eq_ok {kind : Token.Kind} {t : Token} :
    expect kind ts = .ok (t, rest) ↔ ts = t :: rest ∧ t.kind = kind := by
  rw [expect, bind_eq_ok]
  constructor
  · rintro ⟨_ | u, mid, hu, h⟩
    · exact absurd h fail_ne_ok
    · obtain ⟨rfl, rfl⟩ := pure_eq_ok.mp h
      exact accept?_eq_some.mp hu
  · intro h
    exact ⟨some t, rest, accept?_eq_some.mpr h, rfl⟩

/-- Taking a token of which only the kind matters. -/
theorem skip_eq_ok {kind : Token.Kind} {u : Unit} :
    (do let _ ← expect kind : Parser Unit) ts = .ok (u, rest) ↔
      ∃ t, ts = t :: rest ∧ t.kind = kind := by
  rw [bind_eq_ok]
  constructor
  · rintro ⟨t, mid, ht, h⟩
    obtain ⟨-, rfl⟩ := pure_eq_ok.mp h
    exact ⟨t, expect_eq_ok.mp ht⟩
  · rintro ⟨t, ht⟩
    exact ⟨t, rest, expect_eq_ok.mpr ht, rfl⟩

theorem mark_eq_ok {m : Mark} {u : Unit} :
    mark m ts = .ok (u, rest) ↔ ∃ t, ts = t :: rest ∧ t.kind = .mark m :=
  skip_eq_ok

theorem keyword_eq_ok {k : Keyword} {u : Unit} :
    keyword k ts = .ok (u, rest) ↔ ∃ t, ts = t :: rest ∧ t.kind = .keyword k :=
  skip_eq_ok

/-- A name is one identifier. -/
theorem name_eq_ok {x : String} : name ts = .ok (x, rest) ↔ Reads ts [.name x] rest := by
  simp only [reads_cons, reads_nil]
  rw [name, bind_eq_ok]
  constructor
  · rintro ⟨t, mid, ht, h⟩
    obtain ⟨rfl, rfl⟩ := pure_eq_ok.mp h
    obtain ⟨rfl, hkind⟩ := expect_eq_ok.mp ht
    exact ⟨t, mid, rfl, by rw [Token.lexeme, hkind]; rfl, rfl⟩
  · rintro ⟨t, mid, rfl, ht, rfl⟩
    obtain ⟨hkind, rfl⟩ := Lexeme.mk.inj ht
    exact ⟨t, mid, expect_eq_ok.mpr ⟨rfl, hkind⟩, rfl⟩

end Parser

end SwitchHoist
