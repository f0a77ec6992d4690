import SwitchHoist.Token.Lexer

/-!
# Cutting a token off a text

A token is cut off the front of a text in the same way wherever it stands, as long as what
follows cannot go on with it.  Its text is one of those that its kind stands for, and what an
identifier or a string has to look like is enough for it to be one token.
-/

namespace SwitchHoist

/-- A text that no token goes on with: it does not start with a character of words and
numbers, nor with the second character of `:=`. -/
def Apart (cs : List Char) : Prop :=
  ∀ c ∈ cs.head?, isIdentPart c = false ∧ c ≠ '='

@[simp] theorem apart_nil : Apart [] :=
  fun _ hc => nomatch hc

@[simp] theorem apart_cons {c : Char} {cs : List Char} :
    Apart (c :: cs) ↔ isIdentPart c = false ∧ c ≠ '=' := by
  simp [Apart]

instance : (cs : List Char) → Decidable (Apart cs)
  | [] => .isTrue apart_nil
  | _ :: _ => decidable_of_iff _ apart_cons.symm

theorem Apart.append {cs ds : List Char} (hcs : Apart cs) (hds : Apart ds) : Apart (cs ++ ds) := by
  cases cs with
  | nil => exact hds
  | cons c cs => exact apart_cons.mpr (apart_cons.mp hcs)

/-! ## Cutting a token off again -/

section Again

variable {q : Char → Bool} {xs ys : List Char}

theorem takeWhile_again (hys : ∀ c ∈ ys.head?, q c = false) :
    (xs.takeWhile q ++ ys).takeWhile q = xs.takeWhile q := by
  induction xs with
  | nil => cases ys <;> simp_all
  | cons x xs ih => by_cases hx : q x = true <;> simp_all; cases ys <;> simp_all

theorem dropWhile_again (hys : ∀ c ∈ ys.head?, q c = false) :
    (xs.takeWhile q ++ ys).dropWhile q = ys := by
  have hsplit := List.takeWhile_append_dropWhile (p := q) (l := xs.takeWhile q ++ ys)
  rw [takeWhile_again hys] at hsplit
  exact List.append_cancel_left hsplit

theorem Piece.run_again (kind : Option Token.Kind) (start : List Char)
    (hys : ∀ c ∈ ys.head?, q c = false) :
    Piece.run kind start q (xs.takeWhile q ++ ys) = ⟨kind, start ++ xs.takeWhile q, ys⟩ := by
  rw [Piece.run, takeWhile_again hys, dropWhile_again hys]

end Again

theorem isIdentPart_of_isDigit {c : Char} (h : c.isDigit = true) : isIdentPart c = true := by
  simp [isIdentPart, Char.isAlphanum, h]

theorem isIdentPart_of_isAlpha {c : Char} (h : c.isAlpha = true) : isIdentPart c = true := by
  simp [isIdentPart, Char.isAlphanum, h]

theorem isIdentPart_of_isHexDigit {c : Char} (h : isHexDigit c = true) : isIdentPart c = true := by
  have hclass : c.isDigit = true ∨ ('a' ≤ c ∧ c ≤ 'f') ∨ ('A' ≤ c ∧ c ≤ 'F') := by
    unfold isHexDigit digitValue? at h
    grind
  rcases hclass with h | ⟨hleft, hright⟩ | ⟨hleft, hright⟩
  · exact isIdentPart_of_isDigit h
  · have hlower : c.isLower = true := Bool.and_eq_true_iff.mpr
      ⟨decide_eq_true hleft, decide_eq_true (Nat.le_trans hright (by decide))⟩
    exact isIdentPart_of_isAlpha (Bool.or_eq_true_iff.mpr (Or.inr hlower))
  · have hupper : c.isUpper = true :=
      decide_eq_true ⟨hleft, Nat.le_trans hright (by decide)⟩
    exact isIdentPart_of_isAlpha (Bool.or_eq_true_iff.mpr (Or.inl hupper))

theorem isBlank_eq_false {c : Char} (h : isIdentPart c = true) : isBlank c = false := by
  rw [Bool.eq_false_iff]
  intro hblank
  simp only [isBlank, Bool.or_eq_true, beq_iff_eq] at hblank
  rcases hblank with (((rfl | rfl) | rfl) | rfl) | rfl <;> cases h

theorem stringElements_again (cs ys : List Char) :
    stringElements ((stringElements cs).1 ++ '"' :: ys) = ((stringElements cs).1, '"' :: ys) := by
  fun_induction stringElements cs <;> simp_all [stringElements]

/-- What was taken as string elements is all of it string elements. -/
theorem stringElements_elements (cs : List Char) :
    (stringElements (stringElements cs).1).2 = [] := by
  fun_induction stringElements cs <;> simp_all [stringElements]

namespace Piece

variable {ys : List Char} {p : Piece}

theorem word_again (c : Char) (rest : List Char) (hys : Apart ys) :
    word c (rest.takeWhile isIdentPart ++ ys) = ⟨(word c rest).kind, (word c rest).text, ys⟩ := by
  have hpart : ∀ d ∈ ys.head?, isIdentPart d = false := fun d hd => (hys d hd).1
  simp only [word, takeWhile_again hpart, dropWhile_again hpart]

/-- A number that is not written with `0x` is a run of decimal digits. -/
theorem number_eq_run {c : Char} {rest : List Char} (h : ∀ d ∈ rest.head?, d ≠ 'x') :
    number c rest = run (some .number) [c] Char.isDigit rest := by
  unfold number
  split
  · simp at h
  · rfl

theorem decimal_again (c : Char) (rest : List Char) (hys : Apart ys) :
    number c (rest.takeWhile Char.isDigit ++ ys)
      = ⟨some .number, c :: rest.takeWhile Char.isDigit, ys⟩ := by
  have hpart : ∀ d ∈ ys.head?, isIdentPart d = false := fun d hd => (hys d hd).1
  have hdigit : ∀ d ∈ ys.head?, d.isDigit = false := by
    grind [isIdentPart_of_isDigit]
  have hx : ∀ d ∈ (rest.takeWhile Char.isDigit ++ ys).head?, d ≠ 'x' := by
    rintro d hd rfl
    cases hrest : rest.takeWhile Char.isDigit with
    | nil =>
        rw [hrest] at hd
        cases hpart _ hd
    | cons e es =>
        rw [hrest] at hd
        cases hd
        have hall : (rest.takeWhile Char.isDigit).all Char.isDigit = true := List.all_takeWhile
        rw [hrest, List.all_cons] at hall
        cases hall
  rw [number_eq_run hx, run_again _ _ hdigit]
  rfl

theorem number_again (c : Char) (rest : List Char) (hys : Apart ys) :
    number c ((number c rest).text.tail ++ ys)
      = ⟨(number c rest).kind, (number c rest).text, ys⟩ := by
  fun_cases number c rest with
  | case1 d tail h =>
      have hhex : ∀ d ∈ ys.head?, isHexDigit d = false := fun d hd => by
        have := (hys d hd).1
        grind [isIdentPart_of_isHexDigit]
      obtain ⟨rfl, hd⟩ := h
      have hrun : run (some .number) ['0', 'x', d] isHexDigit (tail.takeWhile isHexDigit ++ ys) =
          ⟨some .number, ['0', 'x', d] ++ tail.takeWhile isHexDigit, ys⟩ := run_again _ _ hhex
      simpa [number, run, hd] using hrun
  | case2 d tail h => exact decimal_again c _ hys
  | case3 => exact decimal_again c rest hys

theorem string?_again {rest : List Char} (h : string? rest = some p) :
    string? (p.text.tail ++ ys) = some ⟨p.kind, p.text, ys⟩ := by
  unfold string? at h
  split at h
  · cases h
    have := stringElements_again rest ys
    simp_all [string?]
  · cases h

theorem comment?_kind {rest : List Char} (h : comment? rest = some p) : p.kind = none := by
  fun_cases comment? rest with
  | case1 tail =>
      simp only [comment?, Option.some.injEq] at h
      exact h ▸ rfl
  | case2 tail =>
      obtain ⟨r, -, rfl⟩ := Option.map_eq_some_iff.1 h
      rfl
  | case3 => simp_all [comment?]

/-- A mark is cut off in front of anything, but for a colon, which is the one mark that starts
a longer one. -/
theorem next?_mark (m : Mark) (hys : m = .colon → ∀ c ∈ ys.head?, c ≠ '=') :
    next? (m.text.toList ++ ys) = some ⟨some (.mark m), m.text.toList, ys⟩ := by
  cases m with
  | colon =>
      cases ys with
      | nil => rfl
      | cons y ys =>
          have hy : '=' ≠ y := (hys rfl y rfl).symm
          change mark? (':' :: y :: ys) = _
          simp [mark?, Mark.all, Mark.text, hy]
  | _ => rfl

theorem mark?_again {cs : List Char} (h : mark? cs = some p) (hys : Apart ys) :
    next? (p.text ++ ys) = some ⟨p.kind, p.text, ys⟩ := by
  obtain ⟨m, -, rfl⟩ := Option.map_eq_some_iff.1 h
  exact next?_mark m fun _ c hc => (hys c hc).2

/-- A piece starts with the first character of the text. -/
theorem Splits.text_eq_cons {c : Char} {rest : List Char} (h : p.Splits (c :: rest)) :
    p.text = c :: p.text.tail := by
  obtain ⟨hne, happ⟩ := h
  obtain ⟨d, tail, htext⟩ := List.exists_cons_of_ne_nil hne
  rw [htext, List.cons_append, List.cons.injEq] at happ
  rw [htext, happ.1, List.tail_cons]

/-- A token is cut off again, as the same token, in front of anything that it does not go on
with. -/
theorem next?_again {cs : List Char} (h : next? cs = some p) (hk : p.kind ≠ none)
    (hys : Apart ys) : next? (p.text ++ ys) = some ⟨p.kind, p.text, ys⟩ := by
  have hsplits := next?_splits h
  obtain ⟨c, rest, rfl, hcut⟩ := next?_cut h
  have htext : p.text ++ ys = c :: (p.text.tail ++ ys) := by
    rw [hsplits.text_eq_cons, List.cons_append, List.tail_cons]
  cases hcut with
  | blank _ => exact absurd rfl hk
  | word hblank hstart =>
      rw [← word_again c rest hys]
      simp [next?, hblank, hstart, word]
  | number hblank hstart hdigit =>
      rw [htext, ← number_again c rest hys]
      simp [next?, hblank, hstart, hdigit]
  | string hquote hstring =>
      subst hquote
      rw [htext]
      exact string?_again hstring
  | comment _ hcomment => exact absurd (comment?_kind hcomment) hk
  | mark hmark => exact mark?_again hmark hys

end Piece

/-! ## What the tokens of a kind look like -/

/-- The texts that a kind of token stands for, but that an identifier is no keyword. -/
def Token.Kind.Matches : Token.Kind → List Char → Prop
  | .keyword k, cs => cs = k.text.toList
  | .mark m, cs => cs = m.text.toList
  | .number, cs =>
      (cs ≠ [] ∧ cs.all Char.isDigit = true) ∨
        ∃ ds, cs = '0' :: 'x' :: ds ∧ ds ≠ [] ∧ ds.all isHexDigit = true
  | .string, cs => ∃ v, cs = '"' :: v ++ ['"'] ∧ (stringElements v).2 = []
  | .identifier, cs => isIdentifier (String.ofList cs) = true

namespace Piece

variable {p : Piece} {k : Token.Kind}

theorem word_matches {c : Char} {rest : List Char} (hc : isIdentStart c = true)
    (hk : (word c rest).kind = some k) : k.Matches (word c rest).text := by
  simp only [word, Option.some.injEq] at hk
  subst hk
  split
  · next key hkey =>
      rw [Token.Kind.Matches, Keyword.text_of_ofText? hkey, String.toList_ofList]
      rfl
  · simp [Token.Kind.Matches, isIdentifier, word, hc, List.all_takeWhile]

theorem number_matches {c : Char} {rest : List Char} (hc : c.isDigit = true)
    (hk : (number c rest).kind = some k) : k.Matches (number c rest).text := by
  revert hk
  fun_cases number c rest with
  | case1 d tail h =>
      intro hk
      cases hk
      refine Or.inr ⟨d :: tail.takeWhile isHexDigit, rfl, by simp, ?_⟩
      rw [List.all_cons, h.2, List.all_takeWhile, Bool.true_and]
  | case2 d tail h =>
      intro hk
      cases hk
      exact Or.inl ⟨by simp [run], by simp [run, hc]⟩
  | case3 =>
      intro hk
      cases hk
      exact Or.inl ⟨by simp [run], by simp [run, hc, List.all_takeWhile]⟩

theorem string?_matches {rest : List Char} (h : string? rest = some p)
    (hk : p.kind = some k) : k.Matches p.text := by
  unfold string? at h
  split at h
  · cases h
    cases hk
    exact ⟨(stringElements rest).1, rfl, stringElements_elements rest⟩
  · cases h

/-- The text of a token is one that its kind stands for. -/
theorem next?_matches {cs : List Char} (h : next? cs = some p) (hk : p.kind = some k) :
    k.Matches p.text := by
  obtain ⟨c, rest, rfl, hcut⟩ := next?_cut h
  cases hcut with
  | blank _ => cases hk
  | word _ hstart => exact word_matches hstart hk
  | number _ _ hdigit => exact number_matches hdigit hk
  | string _ hstring => exact string?_matches hstring hk
  | comment _ hcomment =>
      rw [comment?_kind hcomment] at hk
      cases hk
  | mark hmark =>
      obtain ⟨m, -, rfl⟩ := Option.map_eq_some_iff.1 hmark
      cases hk
      rfl

theorem next?_word {c : Char} (hc : isIdentStart c = true) (rest : List Char) :
    next? (c :: rest) = some (word c rest) := by
  have hblank := isBlank_eq_false (isIdentPart_of_isIdentStart hc)
  simp [next?, hblank, hc]

theorem next?_number {c : Char} (hc : c.isDigit = true) (rest : List Char) :
    next? (c :: rest) = some (number c rest) := by
  have hblank := isBlank_eq_false (isIdentPart_of_isDigit hc)
  have hstart : isIdentStart c = false := by
    rw [Bool.eq_false_iff]
    intro hstart
    simp only [isIdentStart, Bool.or_eq_true, beq_iff_eq] at hstart
    rcases hstart with (halpha | rfl) | rfl
    -- Letters of both cases come behind the digits.
    · have hdigit : c.val ≤ '9'.val := of_decide_eq_true (Bool.and_eq_true_iff.mp hc).2
      have hletter : 'A'.val ≤ c.val := by
        rcases Bool.or_eq_true_iff.mp halpha with hupper | hlower
        · exact (of_decide_eq_true hupper).1
        · have hle : 'a'.val ≤ c.val := of_decide_eq_true (Bool.and_eq_true_iff.mp hlower).1
          exact UInt32.le_trans (by decide) hle
      exact absurd (UInt32.le_trans hletter hdigit) (by decide)
    · cases hc
    · cases hc
  simp [next?, hblank, hstart, hc]

/-- An identifier is a token unless it is spelled like a keyword. -/
theorem next?_identifier {x : String} (hx : isIdentifier x = true)
    (hkey : ∀ k : Keyword, k.text ≠ x) :
    next? x.toList = some ⟨some .identifier, x.toList, []⟩ := by
  unfold isIdentifier at hx
  split at hx
  · cases hx
  · next c rest hcs =>
      rw [Bool.and_eq_true] at hx
      obtain ⟨hstart, hparts⟩ := hx
      have hnone : Keyword.ofText? x = none := by
        rw [Keyword.ofText?, List.find?_eq_none]
        intro k _
        simpa using hkey k
      have hword : word c rest = ⟨some .identifier, c :: rest, []⟩ := by
        have hall := List.all_eq_true.mp hparts
        have htake : (rest ++ []).takeWhile isIdentPart = rest ++ [] :=
          List.takeWhile_append_of_pos hall
        have hdrop : (rest ++ []).dropWhile isIdentPart = [] :=
          List.dropWhile_append_of_pos hall
        rw [List.append_nil] at htake hdrop
        simp [word, htake, hdrop, ← hcs, hnone]
      rw [hcs, next?_word hstart, hword]

/-- Complete string elements between quotes are a token, whatever follows. -/
theorem next?_string {v : List Char} (hv : (stringElements v).2 = []) (ys : List Char) :
    next? ('"' :: v ++ '"' :: ys) = some ⟨some .string, '"' :: v ++ ['"'], ys⟩ := by
  have hall : (stringElements v).1 = v := by
    simpa [hv] using stringElements_append v
  have hagain := stringElements_again v ys
  rw [hall] at hagain
  change string? (v ++ '"' :: ys) = _
  simp [string?, hagain]

end Piece

end SwitchHoist
