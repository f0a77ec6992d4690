import SwitchHoist.Proofs.Pieces

/-!
# Texts as sequences of tokens

Without their places, the tokens of a text do not depend on where the text stands.  Every one
of them is a text of its own that is cut into this one token, and a text may be put together
from such tokens and blanks, as long as no token goes on with what follows it.
-/

namespace SwitchHoist

/-- What a token is and how it is spelled, wherever it stands. -/
structure Lexeme where
  kind : Token.Kind
  text : String
  deriving DecidableEq, Repr

/-- A token without its place. -/
def Token.lexeme (t : Token) : Lexeme :=
  ⟨t.kind, t.text⟩

namespace Lexeme

/-- A punctuation mark. -/
def mark (m : Mark) : Lexeme :=
  ⟨.mark m, m.text⟩

/-- A keyword. -/
def keyword (k : Keyword) : Lexeme :=
  ⟨.keyword k, k.text⟩

/-- A name. -/
def name (x : String) : Lexeme :=
  ⟨.identifier, x⟩

end Lexeme

/-- A lexeme whose text, taken alone, is this one token. -/
def Lexeme.IsToken (l : Lexeme) : Prop :=
  lex l.text = .ok [⟨l.kind, l.text, 0⟩]

/-- A text is cut into lexemes, with text to skip before, between and behind them. -/
inductive Tokenizes : List Char → List Lexeme → Prop where
  | nil : Tokenizes [] []
  | skip {cs : List Char} {p : Piece} {ls : List Lexeme} :
      Piece.next? cs = some p → p.kind = none → Tokenizes p.rest ls → Tokenizes cs ls
  | token {cs : List Char} {p : Piece} {k : Token.Kind} {ls : List Lexeme} :
      Piece.next? cs = some p → p.kind = some k → Tokenizes p.rest ls →
      Tokenizes cs (⟨k, String.ofList p.text⟩ :: ls)

theorem lexFrom_nil (offset : Nat) : lexFrom offset [] = .ok [] := by
  rw [lexFrom]
  rfl

/-- The token that a piece is, if it is one, in front of the tokens behind it. -/
def Piece.prepend (p : Piece) (offset : Nat) (ts : List Token) : List Token :=
  match p.kind with
  | none => ts
  | some k => ⟨k, String.ofList p.text, offset⟩ :: ts

theorem lexFrom_of_next? {cs : List Char} {p : Piece} (h : Piece.next? cs = some p)
    (offset : Nat) :
    lexFrom offset cs = (lexFrom (offset + byteLength p.text) p.rest).map (p.prepend offset) := by
  obtain ⟨c, rest, rfl⟩ : ∃ c rest, cs = c :: rest := by
    cases cs with
    | nil => cases h
    | cons c rest => exact ⟨c, rest, rfl⟩
  rw [lexFrom]
  simp only [List.isEmpty_cons, Bool.false_eq_true, if_false]
  split
  · next hnone => rw [h] at hnone; cases hnone
  · next q hq =>
      obtain rfl : p = q := Option.some.inj (h.symm.trans hq)
      cases lexFrom (offset + byteLength p.text) p.rest with
      | error e => rfl
      | ok ts =>
          unfold Piece.prepend
          cases hkind : p.kind <;> rfl

theorem Tokenizes.exists_lexFrom {cs : List Char} {ls : List Lexeme} (h : Tokenizes cs ls)
    (offset : Nat) : ∃ ts, lexFrom offset cs = .ok ts ∧ ts.map Token.lexeme = ls := by
  induction h generalizing offset with
  | nil => exact ⟨[], lexFrom_nil offset, rfl⟩
  | @skip cs p ls hnext hkind _ ih =>
      obtain ⟨ts, hts, rfl⟩ := ih (offset + byteLength p.text)
      refine ⟨p.prepend offset ts, by rw [lexFrom_of_next? hnext, hts]; rfl, ?_⟩
      rw [Piece.prepend, hkind]
  | @token cs p k ls hnext hkind _ ih =>
      obtain ⟨ts, hts, rfl⟩ := ih (offset + byteLength p.text)
      refine ⟨p.prepend offset ts, by rw [lexFrom_of_next? hnext, hts]; rfl, ?_⟩
      rw [Piece.prepend, hkind]
      rfl

theorem Tokenizes.of_lexFrom {offset : Nat} {cs : List Char} {ts : List Token}
    (h : lexFrom offset cs = .ok ts) : Tokenizes cs (ts.map Token.lexeme) := by
  fun_induction lexFrom offset cs generalizing ts with
  | case1 offset cs hempty =>
      obtain rfl : cs = [] := by simpa using hempty
      cases h
      exact .nil
  | case2 => cases h
  | case3 offset cs _ p hnext _ ih =>
      cases hrest : lexFrom (offset + byteLength p.text) p.rest with
      | error e =>
          rw [hrest] at h
          cases h
      | ok us =>
          rw [hrest] at h
          cases hkind : p.kind with
          | none =>
              rw [hkind] at h
              cases h
              exact .skip hnext hkind (ih hrest)
          | some k =>
              rw [hkind] at h
              cases h
              exact .token hnext hkind (ih hrest)

/-! ## Lexemes that are tokens of their own -/

/-- The lexemes of a text are together no longer than the text. -/
theorem Tokenizes.length_le {cs : List Char} {ls : List Lexeme} (h : Tokenizes cs ls) :
    ∀ l ∈ ls, l.text.toList.length ≤ cs.length := by
  induction h with
  | nil => exact fun _ hl => nomatch hl
  | skip hnext _ _ ih =>
      have hshorter := Piece.rest_length_lt hnext
      exact fun l hl => Nat.le_trans (ih l hl) (Nat.le_of_lt hshorter)
  | @token cs p k ls hnext _ _ ih =>
      obtain ⟨-, happ⟩ := Piece.next?_splits hnext
      have hlength := congrArg List.length happ
      rw [List.length_append] at hlength
      refine List.forall_mem_cons.mpr ⟨?_, fun l hl => ?_⟩
      · rw [String.toList_ofList]
        omega
      · have := ih l hl
        omega

/-- A text that is cut into itself is one piece. -/
theorem Tokenizes.next?_eq {cs : List Char} {k : Token.Kind}
    (h : Tokenizes cs [⟨k, String.ofList cs⟩]) : Piece.next? cs = some ⟨some k, cs, []⟩ := by
  generalize hls : [(⟨k, String.ofList cs⟩ : Lexeme)] = ls at h
  cases h with
  | nil => cases hls
  | @skip _ p _ hnext _ hrest =>
      have hshorter := Piece.rest_length_lt hnext
      have hle := hrest.length_le ⟨k, String.ofList cs⟩ (by simp [← hls])
      rw [String.toList_ofList] at hle
      omega
  | @token _ p k _ hnext hkind _ =>
      simp only [List.cons.injEq, Lexeme.mk.injEq, String.ofList_inj] at hls
      obtain ⟨⟨rfl, htext⟩, -⟩ := hls
      obtain ⟨-, happ⟩ := Piece.next?_splits hnext
      have hrest : p.rest = [] := by simpa [← htext] using happ
      rw [hnext, ← hkind, ← hrest, htext]

theorem Lexeme.isToken_iff {l : Lexeme} :
    l.IsToken ↔ Piece.next? l.text.toList = some ⟨some l.kind, l.text.toList, []⟩ := by
  constructor
  · intro h
    apply Tokenizes.next?_eq
    rw [String.ofList_toList]
    exact Tokenizes.of_lexFrom h
  · intro h
    rw [Lexeme.IsToken, lex, lexFrom_of_next? h, lexFrom_nil]
    simp [Except.map, Piece.prepend]

instance (l : Lexeme) : Decidable l.IsToken :=
  decidable_of_iff _ Lexeme.isToken_iff.symm

theorem Keyword.isToken (k : Keyword) : (Lexeme.keyword k).IsToken := by
  cases k <;> decide

/-- Every token of a text is a text of its own. -/
theorem Tokenizes.isToken {cs : List Char} {ls : List Lexeme} (h : Tokenizes cs ls) :
    ∀ l ∈ ls, l.IsToken := by
  induction h with
  | nil => exact fun _ hl => nomatch hl
  | skip _ _ _ ih => exact ih
  | @token cs p k ls hnext hkind _ ih =>
      refine List.forall_mem_cons.mpr ⟨?_, ih⟩
      have hagain := Piece.next?_again hnext (by simp [hkind]) apart_nil
      rw [Lexeme.isToken_iff, String.toList_ofList, ← hkind]
      simpa using hagain

theorem isToken_of_lex {code : String} {ts : List Token} (h : lex code = .ok ts) :
    ∀ t ∈ ts, t.lexeme.IsToken :=
  List.forall_mem_map.mp (Tokenizes.of_lexFrom h).isToken

/-- The text of a token is one that its kind stands for. -/
theorem Lexeme.IsToken.matches {l : Lexeme} (h : l.IsToken) : l.kind.Matches l.text.toList :=
  Piece.next?_matches (Lexeme.isToken_iff.mp h) rfl

/-! ## Putting texts together -/

/-- A mark in front of a text, which for a colon must not make `:=` of it. -/
theorem Tokenizes.mark {m : Mark} {cs : List Char} {ls : List Lexeme} (h : Tokenizes cs ls)
    (hcs : m = .colon → ∀ c ∈ cs.head?, c ≠ '=') :
    Tokenizes (m.text.toList ++ cs) (.mark m :: ls) := by
  simpa [Lexeme.mark] using Tokenizes.token (Piece.next?_mark m hcs) rfl h

/-- A token in front of a text that it does not go on with. -/
theorem Lexeme.IsToken.tokenizes_append {l : Lexeme} (hl : l.IsToken) {cs : List Char}
    {ls : List Lexeme} (happart : Apart cs) (h : Tokenizes cs ls) :
    Tokenizes (l.text.toList ++ cs) (l :: ls) := by
  have hnext := Piece.next?_again (Lexeme.isToken_iff.mp hl) (by simp) happart
  simpa using Tokenizes.token hnext rfl h

/-- Blanks in front of a text are skipped. -/
theorem Tokenizes.blank {c : Char} (hc : isBlank c = true) {cs : List Char} {ls : List Lexeme}
    (h : Tokenizes cs ls) : Tokenizes (c :: cs) ls := by
  have hnext : Piece.next? (c :: cs) = some (Piece.run none [c] isBlank cs) := by
    simp [Piece.next?, hc]
  refine .skip hnext rfl ?_
  change Tokenizes (cs.dropWhile isBlank) ls
  -- All the blanks in front of a text are one piece.
  cases cs with
  | nil => exact h
  | cons d cs =>
      by_cases hd : isBlank d = true
      · rw [List.dropWhile_cons_of_pos hd]
        have hrun : Piece.next? (d :: cs) = some (Piece.run none [d] isBlank cs) := by
          simp [Piece.next?, hd]
        cases h with
        | skip hnext _ hrest =>
            cases hrun.symm.trans hnext
            exact hrest
        | token hnext hkind _ =>
            cases hrun.symm.trans hnext
            cases hkind
      · rw [List.dropWhile_cons_of_neg hd]
        exact h

end SwitchHoist
