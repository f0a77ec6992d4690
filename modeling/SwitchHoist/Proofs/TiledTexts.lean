import SwitchHoist.Proofs.Tiling

/-!
# Tilings decide the tokens

A text that is tiled with longest tokens and gaps to its end is cut into just these tokens,
`lexFrom_eq_ok_iff`.  So to know the tokens of a text it is enough to show a tiling of it.

What makes this so is that no token but a string has a character that something to skip or a
string starts with, and that a string is the same token whatever stands behind it.
-/

namespace SwitchHoist

/-! ## The characters of tokens -/

/-- Characters that neither something to skip nor a string starts with. -/
def IsPlain (c : Char) : Prop :=
  isBlank c = false ∧ c ≠ '/' ∧ c ≠ '"'

instance (c : Char) : Decidable (IsPlain c) :=
  inferInstanceAs (Decidable (_ ∧ _))

theorem isPlain_of_isIdentPart {c : Char} (h : isIdentPart c = true) : IsPlain c := by
  refine ⟨isBlank_eq_false h, ?_, ?_⟩ <;> rintro rfl <;> cases h

theorem Keyword.isPlain (k : Keyword) : ∀ c ∈ k.text.toList, IsPlain c := by
  have hall : k.text.toList.all (fun c => decide (IsPlain c)) = true := by
    cases k <;> decide
  exact fun c hc => of_decide_eq_true (List.all_eq_true.mp hall c hc)

theorem Mark.isPlain (m : Mark) : ∀ c ∈ m.text.toList, IsPlain c := by
  have hall : m.text.toList.all (fun c => decide (IsPlain c)) = true := by
    cases m <;> decide
  exact fun c hc => of_decide_eq_true (List.all_eq_true.mp hall c hc)

/-- Something to skip starts with a blank or a slash. -/
theorem Piece.head_of_skip {cs : List Char} {p : Piece} (h : next? cs = some p)
    (hk : p.kind = none) : ∀ c ∈ cs.head?, isBlank c = true ∨ c = '/' := by
  obtain ⟨c, rest, rfl, hskip⟩ := next?_skip h hk
  intro d hd
  cases hd
  exact hskip.imp And.left And.left

namespace Token.Kind

variable {k : Token.Kind} {w ys : List Char}

/-- No token but a string has a character that something to skip or a string starts with. -/
theorem Matches.isPlain (h : k.Matches w) (hk : k ≠ .string) : ∀ c ∈ w, IsPlain c := by
  cases k with
  | keyword key => exact h ▸ key.isPlain
  | mark m => exact h ▸ m.isPlain
  | number =>
      rcases h with ⟨-, hdigits⟩ | ⟨ds, rfl, -, hdigits⟩
      · rw [List.all_eq_true] at hdigits
        exact fun c hc => isPlain_of_isIdentPart (isIdentPart_of_isDigit (hdigits c hc))
      · rw [List.all_eq_true] at hdigits
        refine List.forall_mem_cons.mpr ⟨by decide, List.forall_mem_cons.mpr ⟨by decide, ?_⟩⟩
        exact fun c hc => isPlain_of_isIdentPart (isIdentPart_of_isHexDigit (hdigits c hc))
  | string => exact absurd rfl hk
  | identifier =>
      cases w with
      | nil => cases h
      | cons c v =>
          simp only [Matches, isIdentifier, String.toList_ofList, Bool.and_eq_true,
            List.all_eq_true] at h
          refine List.forall_mem_cons.mpr ⟨?_, fun d hd => isPlain_of_isIdentPart (h.2 d hd)⟩
          exact isPlain_of_isIdentPart (isIdentPart_of_isIdentStart h.1)

/-- A token does not start like something to skip. -/
theorem Matches.head (h : k.Matches w) : ∀ c ∈ w.head?, isBlank c = false ∧ c ≠ '/' := by
  intro c hc
  by_cases hk : k = .string
  · obtain ⟨v, rfl, -⟩ := hk ▸ h
    cases hc
    exact ⟨rfl, by decide⟩
  · have hplain := h.isPlain hk c (List.mem_of_mem_head? hc)
    exact ⟨hplain.1, hplain.2.1⟩

/-- A string is a token of its own, whatever follows. -/
theorem Matches.next?_string (h : Token.Kind.string.Matches w) (ys : List Char) :
    Piece.next? (w ++ ys) = some ⟨some .string, w, ys⟩ := by
  obtain ⟨v, rfl, hv⟩ := h
  rw [List.append_assoc]
  exact Piece.next?_string hv ys

/-- The longest token at the front of a text is cut off it. -/
theorem Longest.next? (h : k.Longest w (w ++ ys)) :
    Piece.next? (w ++ ys) = some ⟨some k, w, ys⟩ := by
  have hmatches := mem_pattern_iff.mp h.matched
  by_cases hstring : k = .string
  · subst hstring
    exact hmatches.next?_string ys
  obtain ⟨p, hnext, hbeats⟩ := Piece.exists_next?_beats hmatches ys
  obtain ⟨c, v, rfl⟩ := List.exists_cons_of_ne_nil hmatches.ne_nil
  have hhead := hmatches.head c rfl
  cases hkind : p.kind with
  -- The text does not start like something to skip.
  | none =>
      rcases Piece.head_of_skip hnext hkind c rfl with hblank | hslash
      · cases hhead.1.symm.trans hblank
      · exact absurd hslash hhead.2
  -- A token that is cut off is as long as the longest one, and of the same kind.
  | some k' =>
      have hother := Piece.next?_longest hnext hkind
      have hlength := h.longest k' p.text hother.front hother.matched
      have htext : c :: v = p.text :=
        (List.prefix_of_prefix_length_le h.front hother.front hbeats.longest).eq_of_length_le hlength
      obtain ⟨-, hsplit⟩ := Piece.next?_splits hnext
      have hrest : p.rest = ys := by
        rw [htext] at hsplit
        exact List.append_cancel_left hsplit
      have hmem : c :: v ∈ k'.pattern := htext ▸ hother.matched
      obtain rfl : k' = k := by
        rcases h.preferred k' hmem with hsame | ⟨⟨key, rfl⟩, rfl⟩
        · exact hsame
        · rcases hother.preferred _ (htext ▸ h.matched) with hsame | ⟨⟨key', hkey'⟩, -⟩
          · exact hsame.symm
          · cases hkey'
      rw [hnext, ← hrest, htext, ← hkind]

end Token.Kind

/-! ## Gaps are skipped -/

/-- A piece to skip leaves the tokens behind it. -/
theorem lexFrom_of_skip {cs : List Char} {p : Piece} (h : Piece.next? cs = some p)
    (hk : p.kind = none) (offset : Nat) :
    lexFrom offset cs = lexFrom (offset + byteLength p.text) p.rest := by
  have hprepend : p.prepend offset = id := funext fun ts => by rw [Piece.prepend, hk, id]
  rw [lexFrom_of_next? h, hprepend, Except.map_id, id]

theorem Piece.next?_blank {c : Char} (hc : isBlank c = true) (rest : List Char) :
    next? (c :: rest) = some (run none [c] isBlank rest) :=
  if_pos hc

theorem lexFrom_blank {c : Char} (hc : isBlank c = true) (offset : Nat) (cs : List Char) :
    lexFrom offset (c :: cs) = lexFrom (offset + c.utf8Size) cs := by
  rw [lexFrom_of_skip (Piece.next?_blank hc cs) rfl]
  simp only [Piece.run, byteLength_append, byteLength, Nat.add_zero, ← Nat.add_assoc]
  cases cs with
  | nil => rfl
  | cons d cs =>
      by_cases hd : isBlank d = true
      -- Blanks that follow one another are one piece.
      · rw [lexFrom_of_skip (Piece.next?_blank hd cs) rfl, List.takeWhile_cons_of_pos hd,
          List.dropWhile_cons_of_pos hd]
        rfl
      · rw [List.takeWhile_cons_of_neg hd, List.dropWhile_cons_of_neg hd]
        rfl

/-- A line comment goes up to a line end or the end of the text. -/
theorem lexFrom_lineComment {line cs : List Char} (hline : '\n' ∉ line)
    (hcs : ∀ c ∈ cs.head?, c = '\n') (offset : Nat) :
    lexFrom offset ('/' :: '/' :: line ++ cs) =
      lexFrom (offset + byteLength ('/' :: '/' :: line)) cs := by
  have hall : line.takeWhile (· != '\n') = line := by
    refine List.takeWhile_eq_self_iff.mpr fun c hc => ?_
    exact bne_iff_ne.mpr fun hend => hline (hend ▸ hc)
  have hrun : Piece.run none ['/', '/'] (· != '\n') (line.takeWhile (· != '\n') ++ cs) =
      ⟨none, ['/', '/'] ++ line.takeWhile (· != '\n'), cs⟩ :=
    Piece.run_again none ['/', '/'] fun c hc => by
      rw [hcs c hc]
      rfl
  rw [hall] at hrun
  have hnext : Piece.next? ('/' :: '/' :: line ++ cs) = some ⟨none, '/' :: '/' :: line, cs⟩ :=
    congrArg some hrun
  exact lexFrom_of_skip hnext rfl offset

/-- A block comment goes up to the first `*/`. -/
theorem lexFrom_blockComment {body : List Char} (hbody : IsCommentText body) (offset : Nat)
    (cs : List Char) :
    lexFrom offset ('/' :: '*' :: body ++ ['*', '/'] ++ cs) =
      lexFrom (offset + byteLength ('/' :: '*' :: body ++ ['*', '/'])) cs := by
  have hcomment : commentBody? (body ++ ['*', '/'] ++ cs) = some (body ++ ['*', '/'], cs) :=
    commentBody?_eq_some_iff.mpr ⟨body, hbody, rfl, rfl⟩
  have hnext : Piece.next? ('/' :: '*' :: body ++ ['*', '/'] ++ cs) =
      some ⟨none, '/' :: '*' :: body ++ ['*', '/'], cs⟩ :=
    congrArg (Option.map _) hcomment
  exact lexFrom_of_skip hnext rfl offset

/-- A gap leaves the tokens behind it. -/
theorem IsGap.lexFrom_append {after gap : List Char} (h : IsGap after gap) (offset : Nat) :
    lexFrom offset (gap ++ after) = lexFrom (offset + byteLength gap) after := by
  induction h generalizing offset with
  | nil => rfl
  | blank hc _ ih =>
      rw [List.cons_append, lexFrom_blank (mem_blank_iff.mp hc), ih, byteLength, Nat.add_assoc]
  | lineComment hline hhead _ ih =>
      rw [List.append_assoc, lexFrom_lineComment hline hhead, ih, byteLength_append, Nat.add_assoc]
  | @blockComment body gap hbody _ ih =>
      rw [List.append_assoc _ gap, lexFrom_blockComment hbody, ih, byteLength_append _ gap,
        Nat.add_assoc]

/-! ## Tilings to the end of a text -/

/-- The tokens of a tiled text are the tiles and the tokens of what is left. -/
theorem Tiles.lexFrom_eq {offset stop : Nat} {cs rest : List Char} {ts : List Token}
    (h : Tiles offset cs ts stop rest) :
    lexFrom offset cs = (lexFrom stop rest).map (ts ++ ·) := by
  induction h with
  | @gap offset gap rest hgap =>
      rw [hgap.lexFrom_append]
      exact (congrFun Except.map_id (lexFrom _ rest)).symm
  | @token offset stop gap after rest t ts hgap hstart hlongest _ ih =>
      have hprepend : ∀ us, (⟨some t.kind, t.text.toList, after⟩ : Piece).prepend t.start us =
          t :: us := fun us => by rw [Piece.prepend, String.ofList_toList]
      rw [hgap.lexFrom_append, ← hstart, lexFrom_of_next? hlongest.next?, t.start_add_byteLength, ih]
      cases lexFrom stop rest with
      | error e => rfl
      | ok us => exact congrArg Except.ok (hprepend (ts ++ us))

/-- The tokens of a text are those of its tilings. -/
theorem lexFrom_eq_ok_iff {offset : Nat} {cs : List Char} {ts : List Token} :
    lexFrom offset cs = .ok ts ↔ ∃ stop, Tiles offset cs ts stop [] := by
  constructor
  · intro h
    obtain ⟨us, stop, rest, htiles, -, hlex⟩ := exists_tiles offset cs
    rw [h] at hlex
    split at hlex
    · next hrest =>
        cases hlex
        exact ⟨stop, hrest ▸ htiles⟩
    · cases hlex
  · rintro ⟨stop, htiles⟩
    rw [htiles.lexFrom_eq, lexFrom_nil, Except.map, List.append_nil]

end SwitchHoist
