import SwitchHoist.Digits
import SwitchHoist.Program.Identifier
import SwitchHoist.Source
import SwitchHoist.Token.Basic

/-!
# Splitting a text into tokens

A text is a sequence of pieces: blanks and comments, which are skipped, and
tokens.  `Piece.next?` splits the longest piece off the front.  The two laws
about it, that nothing is lost and that a piece is never empty, make the
splitting of a whole text end.
-/

namespace SwitchHoist

/-- The characters that separate tokens and are otherwise ignored. -/
def isBlank (c : Char) : Bool :=
  c == ' ' || c == '\t' || c == '\r' || c == '\n' || c == '\x0c'

/-- The longest run of complete string elements, and what follows it.  An element
is a character other than a quote, a backslash and a line end, or a backslash
with any character after it but a line end. -/
def stringElements : List Char → List Char × List Char
  | '\\' :: c :: rest =>
      if c = '\n' then ([], '\\' :: c :: rest)
      else ('\\' :: c :: (stringElements rest).1, (stringElements rest).2)
  | c :: rest =>
      if c = '"' ∨ c = '\\' ∨ c = '\n' then ([], c :: rest)
      else (c :: (stringElements rest).1, (stringElements rest).2)
  | [] => ([], [])

theorem stringElements_append (cs : List Char) :
    (stringElements cs).1 ++ (stringElements cs).2 = cs := by
  fun_induction stringElements cs <;> simp_all

/-- The body of a comment up to and with the first `*/`, and what follows it. -/
def commentBody? : List Char → Option (List Char × List Char)
  | '*' :: '/' :: rest => some (['*', '/'], rest)
  | c :: rest => (commentBody? rest).map fun r => (c :: r.1, r.2)
  | [] => none

theorem commentBody?_append {cs body rest : List Char} (h : commentBody? cs = some (body, rest)) :
    body ++ rest = cs := by
  fun_induction commentBody? cs generalizing body rest with
  | case1 tail =>
      obtain ⟨rfl, rfl⟩ : ['*', '/'] = body ∧ tail = rest := by simpa using h
      rfl
  | case2 c tail _ ih =>
      obtain ⟨⟨b, r⟩, hb, he⟩ := Option.map_eq_some_iff.1 h
      simp only [Prod.mk.injEq] at he
      rw [← he.1, ← he.2, List.cons_append, ih hb]
  | case3 => simp at h

/-- A piece at the front of a text: a token of some kind, or text to skip. -/
structure Piece where
  kind : Option Token.Kind
  text : List Char
  rest : List Char
  deriving DecidableEq, Repr

namespace Piece

/-- The piece that runs on for as long as a class of characters goes. -/
def run (kind : Option Token.Kind) (start : List Char) (p : Char → Bool) (rest : List Char) :
    Piece :=
  ⟨kind, start ++ rest.takeWhile p, rest.dropWhile p⟩

/-- A word is a keyword if it is spelled like one, and an identifier otherwise. -/
def word (c : Char) (rest : List Char) : Piece :=
  let text := c :: rest.takeWhile isIdentPart
  let kind := match Keyword.ofText? (String.ofList text) with
    | some k => Token.Kind.keyword k
    | none => Token.Kind.identifier
  ⟨some kind, text, rest.dropWhile isIdentPart⟩

/-- A number: digits, or `0x` with at least one hexadecimal digit after it. -/
def number (c : Char) (rest : List Char) : Piece :=
  match rest with
  | 'x' :: d :: tail =>
      if c = '0' ∧ isHexDigit d = true then run (some .number) ['0', 'x', d] isHexDigit tail
      else run (some .number) [c] Char.isDigit rest
  | _ => run (some .number) [c] Char.isDigit rest

/-- A string ends at the first quote that no backslash hides. -/
def string? (rest : List Char) : Option Piece :=
  match (stringElements rest).2 with
  | '"' :: tail => some ⟨some .string, '"' :: (stringElements rest).1 ++ ['"'], tail⟩
  | _ => none

/-- A comment behind a slash: to the end of the line, or up to the first `*/`. -/
def comment? : List Char → Option Piece
  | '/' :: tail => some (run none ['/', '/'] (· != '\n') tail)
  | '*' :: tail => (commentBody? tail).map fun r => ⟨none, '/' :: '*' :: r.1, r.2⟩
  | _ => none

/-- The longest punctuation mark that the text starts with. -/
def mark? (cs : List Char) : Option Piece :=
  (Mark.all.find? fun m => m.text.toList.isPrefixOf cs).map fun m =>
    ⟨some (.mark m), m.text.toList, cs.drop m.text.toList.length⟩

/-- The longest piece at the front of a text, if it starts with one. -/
def next? : List Char → Option Piece
  | [] => none
  | c :: rest =>
      if isBlank c then some (run none [c] isBlank rest)
      else if isIdentStart c then some (word c rest)
      else if c.isDigit then some (number c rest)
      else if c = '"' then string? rest
      else if c = '/' then comment? rest
      else mark? (c :: rest)

/-- A piece is a non-empty start of the text, and its rest is what remains. -/
def Splits (p : Piece) (cs : List Char) : Prop :=
  p.text ≠ [] ∧ p.text ++ p.rest = cs

theorem run_splits (kind : Option Token.Kind) (start : List Char) (h : start ≠ [])
    (q : Char → Bool) (rest : List Char) : (run kind start q rest).Splits (start ++ rest) := by
  constructor
  · simp [run, h]
  · simp [run, List.append_assoc, List.takeWhile_append_dropWhile]

theorem word_splits (c : Char) (rest : List Char) : (word c rest).Splits (c :: rest) := by
  constructor
  · simp [word]
  · simp [word, List.takeWhile_append_dropWhile]

theorem number_splits (c : Char) (rest : List Char) : (number c rest).Splits (c :: rest) := by
  fun_cases number c rest with
  | case1 d tail h =>
      simpa [h.1] using run_splits (some .number) ['0', 'x', d] (by simp) isHexDigit tail
  | case2 d tail h =>
      exact run_splits (some .number) [c] (by simp) Char.isDigit ('x' :: d :: tail)
  | case3 =>
      exact run_splits (some .number) [c] (by simp) Char.isDigit rest

theorem string?_splits {rest : List Char} {p : Piece} (h : string? rest = some p) :
    p.Splits ('"' :: rest) := by
  unfold string? at h
  split at h
  · next tail htail =>
      cases h
      refine ⟨by simp, ?_⟩
      have := stringElements_append rest
      rw [htail] at this
      simpa using this
  · cases h

theorem comment?_splits {rest : List Char} {p : Piece} (h : comment? rest = some p) :
    p.Splits ('/' :: rest) := by
  fun_cases comment? rest with
  | case1 tail =>
      simp only [comment?, Option.some.injEq] at h
      subst h
      exact run_splits none ['/', '/'] (by simp) _ tail
  | case2 tail =>
      simp only [comment?] at h
      obtain ⟨⟨body, after⟩, hb, rfl⟩ := Option.map_eq_some_iff.1 h
      exact ⟨by simp, by simp [commentBody?_append hb]⟩
  | case3 => simp_all [comment?]

theorem mark?_splits {cs : List Char} {p : Piece} (h : mark? cs = some p) : p.Splits cs := by
  obtain ⟨m, hm, rfl⟩ := Option.map_eq_some_iff.1 h
  refine ⟨m.text_ne_nil, ?_⟩
  have hp : m.text.toList.isPrefixOf cs = true := by simpa using List.find?_some hm
  obtain ⟨t, rfl⟩ := List.isPrefixOf_iff_prefix.1 hp
  simp

/-- The ways to cut a piece off a text that starts with `c`. -/
inductive Cut (c : Char) (rest : List Char) : Piece → Prop where
  | blank : isBlank c = true → Cut c rest (run none [c] isBlank rest)
  | word : isBlank c = false → isIdentStart c = true → Cut c rest (word c rest)
  | number : isBlank c = false → isIdentStart c = false → c.isDigit = true →
      Cut c rest (number c rest)
  | string {p : Piece} : c = '"' → string? rest = some p → Cut c rest p
  | comment {p : Piece} : c = '/' → comment? rest = some p → Cut c rest p
  | mark {p : Piece} : mark? (c :: rest) = some p → Cut c rest p

theorem next?_cut {cs : List Char} {p : Piece} (h : next? cs = some p) :
    ∃ c rest, cs = c :: rest ∧ Cut c rest p := by
  unfold next? at h
  split at h
  · cases h
  · next c rest =>
      refine ⟨c, rest, rfl, ?_⟩
      split at h
      · next hblank =>
          cases h
          exact .blank hblank
      · next hblank =>
          rw [Bool.not_eq_true] at hblank
          split at h
          · next hstart =>
              cases h
              exact .word hblank hstart
          · next hstart =>
              rw [Bool.not_eq_true] at hstart
              split at h
              · next hdigit =>
                  cases h
                  exact .number hblank hstart hdigit
              · split at h
                · next hquote => exact .string hquote h
                · split at h
                  · next hslash => exact .comment hslash h
                  · exact .mark h

theorem next?_splits {cs : List Char} {p : Piece} (h : next? cs = some p) : p.Splits cs := by
  obtain ⟨c, rest, rfl, hcut⟩ := next?_cut h
  cases hcut with
  | blank _ => exact run_splits none [c] (by simp) isBlank rest
  | word _ _ => exact word_splits c rest
  | number _ _ _ => exact number_splits c rest
  | string hc h => exact hc ▸ string?_splits h
  | comment hc h => exact hc ▸ comment?_splits h
  | mark h => exact mark?_splits h

/-- What remains behind a piece is shorter than the text. -/
theorem rest_length_lt {cs : List Char} {p : Piece} (h : next? cs = some p) :
    p.rest.length < cs.length := by
  obtain ⟨hne, happ⟩ := next?_splits h
  have := List.length_pos_iff.2 hne
  rw [← happ, List.length_append]
  omega

end Piece

/-- The text that is reported when no piece is at the front: an open string up to
where it breaks, an open comment to the end, otherwise one character. -/
def unrecognized : List Char → List Char
  | '"' :: rest => '"' :: (stringElements rest).1
  | '/' :: '*' :: rest => '/' :: '*' :: rest
  | c :: _ => [c]
  | [] => []

/-- A place in the text where neither a token nor text to skip begins. -/
structure LexError where
  text : String
  offset : Nat
  deriving DecidableEq, Repr

/-- The message for such a place. -/
def LexError.message (e : LexError) : String :=
  "lex error: unrecognized input `" ++ e.text ++ "` at offset " ++ toString e.offset

/-- The tokens of a text that starts at a byte offset. -/
def lexFrom (offset : Nat) (cs : List Char) : Except LexError (List Token) :=
  if cs.isEmpty then .ok []
  else
    match h : Piece.next? cs with
    | none => .error ⟨String.ofList (unrecognized cs), offset⟩
    | some p => do
        have : p.rest.length < cs.length := Piece.rest_length_lt h
        let tokens ← lexFrom (offset + byteLength p.text) p.rest
        match p.kind with
        | none => pure tokens
        | some kind => pure (⟨kind, String.ofList p.text, offset⟩ :: tokens)
termination_by cs.length

/-- The tokens of a source text. -/
def lex (code : String) : Except LexError (List Token) :=
  lexFrom 0 code.toList

end SwitchHoist
