import SwitchHoist.Proofs.TokenPatterns

/-!
# Longest pieces

A text that is in the pattern of a token or of something to skip has a piece in front of it,
whatever follows, and for a token the piece is no shorter.  So a piece that is cut off
is the longest token that the text starts with, `Piece.next?_longest`, and a text that no piece can
be cut off from does not start with a token or with anything to skip, `Piece.no_pattern`.
-/

namespace SwitchHoist

/-- A token of a kind is the longest at the front of a text: no start of the text that is a token
of any kind is longer.  Where kinds have the text in common, keywords are preferred to
identifiers. -/
structure Token.Kind.Longest (k : Token.Kind) (w cs : List Char) : Prop where
  front : w <+: cs
  matched : w ∈ k.pattern
  longest : ∀ k' : Token.Kind, ∀ w', w' <+: cs → w' ∈ k'.pattern → w'.length ≤ w.length
  preferred : ∀ k' : Token.Kind, w ∈ k'.pattern →
    k' = k ∨ (∃ key, k = .keyword key) ∧ k' = .identifier

theorem Keyword.ofText?_text (k : Keyword) : ofText? k.text = some k := by
  cases k <;> rfl

theorem Keyword.isIdentifier_text (k : Keyword) : isIdentifier k.text = true := by
  cases k <;> rfl

namespace Piece

/-- A piece goes before a token of kind `k` with the text `w`. -/
structure Beats (p : Piece) (k : Token.Kind) (w : List Char) : Prop where
  longest : w.length ≤ p.text.length
  preferred : p.text = w → p.kind = some k ∨ (∃ key, p.kind = some (.keyword key)) ∧ k = .identifier

variable {w ys : List Char}

/-- A word goes on for as long as it can. -/
theorem exists_next?_word (hw : isIdentifier (String.ofList w) = true) (ys : List Char) :
    ∃ p, next? (w ++ ys) = some p ∧ w.length ≤ p.text.length ∧
      (p.text = w →
        p.kind = some (((Keyword.ofText? (String.ofList w)).map .keyword).getD .identifier)) := by
  cases w with
  | nil => cases hw
  | cons c v =>
      simp only [isIdentifier, String.toList_ofList, Bool.and_eq_true, List.all_eq_true] at hw
      have htext : (word c (v ++ ys)).text = c :: (v ++ ys.takeWhile isIdentPart) := by
        rw [word, List.takeWhile_append_of_pos hw.2]
      refine ⟨word c (v ++ ys), next?_word hw.1 (v ++ ys), ?_, ?_⟩
      · rw [htext, List.length_cons, List.length_cons, List.length_append]
        exact Nat.succ_le_succ (Nat.le_add_right ..)
      · intro h
        rw [← h, word]
        cases Keyword.ofText? (String.ofList (c :: (v ++ ys).takeWhile isIdentPart)) <;> rfl

theorem number_kind (c : Char) (rest : List Char) : (number c rest).kind = some .number := by
  fun_cases number c rest <;> rfl

theorem string?_kind {rest : List Char} {p : Piece} (h : string? rest = some p) :
    p.kind = some .string := by
  unfold string? at h
  split at h <;> cases h
  rfl

/-- A piece to skip is a run of blanks or a comment. -/
theorem next?_skip {cs : List Char} {p : Piece} (h : next? cs = some p) (hk : p.kind = none) :
    ∃ c rest, cs = c :: rest ∧ ((isBlank c = true ∧ p = run none [c] isBlank rest) ∨
      (c = '/' ∧ comment? rest = some p)) := by
  obtain ⟨c, rest, rfl, hcut⟩ := next?_cut h
  refine ⟨c, rest, rfl, ?_⟩
  cases hcut with
  | blank hblank => exact Or.inl ⟨hblank, rfl⟩
  | word _ _ => cases hk
  | number _ _ _ =>
      rw [number_kind] at hk
      cases hk
  | string _ hstring =>
      rw [string?_kind hstring] at hk
      cases hk
  | comment hslash hcomment => exact Or.inr ⟨hslash, hcomment⟩
  | mark hmark =>
      obtain ⟨m, -, rfl⟩ := Option.map_eq_some_iff.mp hmark
      cases hk

/-- Decimal digits go on for as long as they can, unless they are a zero in front of `x`. -/
theorem le_length_number {c : Char} {v : List Char} (hv : ∀ d ∈ v, d.isDigit = true)
    (ys : List Char) : (c :: v).length ≤ (number c (v ++ ys)).text.length := by
  cases v with
  | nil =>
      obtain ⟨hne, -⟩ := number_splits c ([] ++ ys)
      exact List.length_pos_of_ne_nil hne
  | cons d v =>
      have hx : ∀ e ∈ (d :: v ++ ys).head?, e ≠ 'x' := by
        rintro e he rfl
        cases he
        cases hv 'x' (List.mem_cons_self ..)
      rw [number_eq_run hx, run, List.takeWhile_append_of_pos hv, ← List.append_assoc,
        List.length_append]
      exact Nat.le_add_right ..

theorem exists_next?_number (hw : Token.Kind.number.Matches w) (ys : List Char) :
    ∃ p, next? (w ++ ys) = some p ∧ p.Beats .number w := by
  rcases hw with ⟨hne, hdigits⟩ | ⟨ds, rfl, hne, hdigits⟩
  · obtain ⟨c, v, rfl⟩ := List.exists_cons_of_ne_nil hne
    rw [List.all_cons, Bool.and_eq_true, List.all_eq_true] at hdigits
    exact ⟨_, next?_number hdigits.1 (v ++ ys), le_length_number hdigits.2 ys,
      fun _ => Or.inl (number_kind c (v ++ ys))⟩
  · obtain ⟨d, ds, rfl⟩ := List.exists_cons_of_ne_nil hne
    rw [List.all_cons, Bool.and_eq_true, List.all_eq_true] at hdigits
    have hnumber : number '0' ('x' :: d :: (ds ++ ys)) =
        run (some .number) ['0', 'x', d] isHexDigit (ds ++ ys) := by
      simp [number, hdigits.1]
    refine ⟨_, (next?_number (by rfl) _).trans (congrArg some hnumber), ?_, fun _ => Or.inl rfl⟩
    rw [run, List.takeWhile_append_of_pos hdigits.2, ← List.append_assoc, List.length_append]
    exact Nat.le_add_right ..

/-- The only mark that another mark goes on with is the colon. -/
theorem exists_next?_mark (m : Mark) (ys : List Char) :
    ∃ p, next? (m.text.toList ++ ys) = some p ∧ p.Beats (.mark m) m.text.toList := by
  by_cases hgets : m = .colon ∧ ∃ zs, ys = '=' :: zs
  · obtain ⟨rfl, zs, rfl⟩ := hgets
    exact ⟨_, next?_mark .gets nofun, Nat.le_succ 1, nofun⟩
  · refine ⟨_, next?_mark m ?_, Nat.le_refl _, fun _ => Or.inl rfl⟩
    rintro rfl c hc rfl
    cases ys with
    | nil => cases hc
    | cons y zs =>
        cases hc
        exact hgets ⟨rfl, zs, rfl⟩

/-- In front of a token there is a token to cut off, and it goes before that token. -/
theorem exists_next?_beats {k : Token.Kind} (h : k.Matches w) (ys : List Char) :
    ∃ p, next? (w ++ ys) = some p ∧ p.Beats k w := by
  cases k with
  | keyword key =>
      obtain rfl : w = key.text.toList := h
      have hword := exists_next?_word (w := key.text.toList) (by simp [key.isIdentifier_text]) ys
      obtain ⟨p, hnext, hlength, hkind⟩ := hword
      refine ⟨p, hnext, hlength, fun htext => Or.inl ?_⟩
      rw [hkind htext, String.ofList_toList, key.ofText?_text]
      rfl
  | mark m =>
      obtain rfl : w = m.text.toList := h
      exact exists_next?_mark m ys
  | number => exact exists_next?_number h ys
  | string =>
      obtain ⟨v, rfl, hv⟩ := h
      refine ⟨⟨some .string, '"' :: v ++ ['"'], ys⟩, ?_, Nat.le_refl _, fun _ => Or.inl rfl⟩
      rw [List.append_assoc]
      exact next?_string hv ys
  | identifier =>
      obtain ⟨p, hnext, hlength, hkind⟩ := exists_next?_word h ys
      refine ⟨p, hnext, hlength, fun htext => ?_⟩
      rw [hkind htext]
      cases Keyword.ofText? (String.ofList w) with
      | none => exact Or.inl rfl
      | some key => exact Or.inr ⟨⟨key, rfl⟩, rfl⟩

/-- In front of something to skip there is a piece to cut off. -/
theorem exists_next?_skip {s : Skip} (h : w ∈ s.pattern) (ys : List Char) :
    ∃ p, next? (w ++ ys) = some p := by
  cases s with
  | blanks =>
      obtain ⟨hne, hblank⟩ := Pattern.mem_many_oneOf.mp h
      obtain ⟨c, v, rfl⟩ := List.exists_cons_of_ne_nil hne
      have hc : isBlank c = true := mem_blank_iff.mp (hblank c (List.mem_cons_self ..))
      exact ⟨_, if_pos hc⟩
  | lineComment =>
      obtain ⟨v, -, rfl⟩ := Pattern.mem_exactly_mul.mp h
      exact ⟨_, rfl⟩
  | blockComment =>
      obtain ⟨body, hbody, rfl⟩ := Skip.mem_blockComment_iff.mp h
      have hcomment : commentBody? (body ++ ['*', '/'] ++ ys) = some (body ++ ['*', '/'], ys) :=
        commentBody?_eq_some_iff.mpr ⟨body, hbody, rfl, rfl⟩
      exact ⟨_, congrArg (Option.map _) hcomment⟩

/-- A token that is cut off a text is the longest one there. -/
theorem next?_longest {cs : List Char} {p : Piece} {k : Token.Kind} (h : next? cs = some p)
    (hk : p.kind = some k) : k.Longest p.text cs := by
  obtain ⟨-, hsplit⟩ := next?_splits h
  -- A start of the text that is a token has a piece in front of it, which is this one.
  have hbeats : ∀ k' : Token.Kind, ∀ w, w <+: cs → w ∈ k'.pattern → p.Beats k' w := by
    rintro k' w ⟨ys, rfl⟩ hw
    obtain ⟨p', hnext, hbeats⟩ := exists_next?_beats (Token.Kind.mem_pattern_iff.mp hw) ys
    cases h.symm.trans hnext
    exact hbeats
  have hfront : p.text <+: cs := ⟨p.rest, hsplit⟩
  refine ⟨hfront, Token.Kind.mem_pattern_iff.mpr (next?_matches h hk),
    fun k' w hw hmem => (hbeats k' w hw hmem).longest, fun k' hmem => ?_⟩
  have hpreferred := (hbeats k' p.text hfront hmem).preferred rfl
  simp only [hk, Option.some.injEq] at hpreferred
  exact hpreferred.imp_left Eq.symm

/-- Where no piece can be cut off, the text starts with no token and with nothing to skip. -/
theorem no_pattern {cs : List Char} (h : next? cs = none) {w : List Char} (hw : w <+: cs) :
    (∀ k : Token.Kind, w ∉ k.pattern) ∧ ∀ s : Skip, w ∉ s.pattern := by
  obtain ⟨ys, rfl⟩ := hw
  constructor
  · intro k hmem
    obtain ⟨p, hnext, -⟩ := exists_next?_beats (Token.Kind.mem_pattern_iff.mp hmem) ys
    cases h.symm.trans hnext
  · intro s hmem
    obtain ⟨p, hnext⟩ := exists_next?_skip hmem ys
    cases h.symm.trans hnext

end Piece

end SwitchHoist
