import Mathlib.Data.List.TakeWhile
import SwitchHoist.Proofs.LongestPieces
import SwitchHoist.Proofs.Tokenizing

/-!
# Texts that are tiled with tokens

The tokens of a text lie in it one behind the other, and each is the longest token where it starts.
What is left between them, before the first and behind the last are blanks and comments.  A text
that is no sequence of tokens is tiled like this up to the place that is reported, where neither a
token nor anything to skip begins.

`Tiles` follows the recursion that cuts one piece after the other off a text.  `Tiling` says the
same about the places of all tokens in the whole text.
-/

namespace SwitchHoist

/-! ## Up to a line end -/

theorem not_mem_takeWhile_lineEnd (cs : List Char) : '\n' ∉ cs.takeWhile (· != '\n') := by
  intro hmem
  have hne := List.mem_takeWhile_imp (p := (· != '\n')) hmem
  cases hne

theorem head?_dropWhile_lineEnd (cs : List Char) :
    ∀ c ∈ (cs.dropWhile (· != '\n')).head?, c = '\n' := by
  intro c hc
  have hnot := List.head?_dropWhile_not (· != '\n') cs
  rw [Option.mem_def.mp hc] at hnot
  simpa using hnot

/-! ## Blanks and comments -/

/-- Blanks and comments in front of the text `after`.  A comment behind `//` goes up to a line end
or the end of the text, and one behind `/*` up to the first `*/`. -/
inductive IsGap (after : List Char) : List Char → Prop where
  | nil : IsGap after []
  | blank {c : Char} {gap : List Char} : c ∈ Pattern.blank → IsGap after gap →
      IsGap after (c :: gap)
  | lineComment {line gap : List Char} : '\n' ∉ line → (∀ c ∈ (gap ++ after).head?, c = '\n') →
      IsGap after gap → IsGap after ('/' :: '/' :: line ++ gap)
  | blockComment {body gap : List Char} : IsCommentText body → IsGap after gap →
      IsGap after ('/' :: '*' :: body ++ ['*', '/'] ++ gap)

theorem IsGap.blanks {after gap bs : List Char} (hbs : ∀ c ∈ bs, isBlank c = true)
    (h : IsGap after gap) : IsGap after (bs ++ gap) := by
  induction bs with
  | nil => exact h
  | cons c bs ih =>
      rw [List.forall_mem_cons] at hbs
      exact .blank (mem_blank_iff.mpr hbs.1) (ih hbs.2)

namespace Piece

variable {p : Piece} {after gap : List Char}

/-- A comment goes with the gap behind it. -/
theorem isGap_comment {rest : List Char} (h : comment? rest = some p)
    (hrest : p.rest = gap ++ after) (hgap : IsGap after gap) : IsGap after (p.text ++ gap) := by
  unfold comment? at h
  split at h
  · next tail =>
      cases h
      -- Behind the comment the text goes on with a line end, if it goes on.
      have hrest : tail.dropWhile (· != '\n') = gap ++ after := hrest
      exact .lineComment (not_mem_takeWhile_lineEnd tail) (hrest ▸ head?_dropWhile_lineEnd tail) hgap
  · next tail =>
      obtain ⟨⟨text, rest⟩, hsome, rfl⟩ := Option.map_eq_some_iff.mp h
      obtain ⟨body, hbody, rfl, -⟩ := commentBody?_eq_some_iff.mp hsome
      exact .blockComment hbody hgap
  · cases h

/-- A piece to skip goes with the gap behind it. -/
theorem isGap_append {cs : List Char} (h : next? cs = some p) (hk : p.kind = none)
    (hrest : p.rest = gap ++ after) (hgap : IsGap after gap) : IsGap after (p.text ++ gap) := by
  obtain ⟨c, rest, rfl, ⟨hblank, rfl⟩ | ⟨-, hcomment⟩⟩ := next?_skip h hk
  · refine hgap.blanks (List.forall_mem_cons.mpr ⟨hblank, fun d hd => ?_⟩)
    exact List.mem_takeWhile_imp hd
  · exact isGap_comment hcomment hrest hgap

end Piece

/-! ## Tiles -/

/-- A text that starts at a byte offset is a gap, then a token with the next gap behind it, and so
on, up to what is left at another byte offset. -/
inductive Tiles : Nat → List Char → List Token → Nat → List Char → Prop where
  | gap {offset : Nat} {gap rest : List Char} : IsGap rest gap →
      Tiles offset (gap ++ rest) [] (offset + byteLength gap) rest
  | token {offset stop : Nat} {gap after rest : List Char} {t : Token} {ts : List Token} :
      IsGap (t.text.toList ++ after) gap → t.start = offset + byteLength gap →
      t.kind.Longest t.text.toList (t.text.toList ++ after) → Tiles t.stop after ts stop rest →
      Tiles offset (gap ++ (t.text.toList ++ after)) (t :: ts) stop rest

namespace Tiles

variable {offset stop : Nat} {cs rest : List Char} {ts : List Token}

/-- A piece to skip in front of tiles goes with their first gap. -/
theorem skip {p : Piece} (hnext : Piece.next? cs = some p) (hk : p.kind = none)
    (h : Tiles (offset + byteLength p.text) p.rest ts stop rest) :
    Tiles offset cs ts stop rest := by
  obtain ⟨-, rfl⟩ := Piece.next?_splits hnext
  generalize hrest : p.rest = behind at h ⊢
  cases h with
  | gap hgap =>
      rw [← List.append_assoc, Nat.add_assoc, ← byteLength_append]
      exact .gap (Piece.isGap_append hnext hk hrest hgap)
  | token hgap hstart hlongest hts =>
      rw [← List.append_assoc]
      refine .token (Piece.isGap_append hnext hk hrest hgap) ?_ hlongest hts
      rw [hstart, byteLength_append, Nat.add_assoc]

/-- A token in front of tiles is a tile behind an empty gap. -/
theorem cons {p : Piece} {k : Token.Kind} (hnext : Piece.next? cs = some p) (hk : p.kind = some k)
    (h : Tiles (offset + byteLength p.text) p.rest ts stop rest) :
    Tiles offset cs (⟨k, String.ofList p.text, offset⟩ :: ts) stop rest := by
  have hlongest := Piece.next?_longest hnext hk
  obtain ⟨-, rfl⟩ := Piece.next?_splits hnext
  have htiles : Tiles offset ([] ++ ((String.ofList p.text).toList ++ p.rest))
      (⟨k, String.ofList p.text, offset⟩ :: ts) stop rest := by
    refine .token (t := ⟨k, String.ofList p.text, offset⟩) .nil (Nat.add_zero offset).symm ?_ ?_
    · rwa [String.toList_ofList]
    · rwa [Token.stop, ← byteLength_ofList]
  rwa [List.nil_append, String.toList_ofList] at htiles

end Tiles

/-- Every text is tiled up to a place where no piece can be cut off.  If this is the end, the tiles
are its tokens, and otherwise the place is an error. -/
theorem exists_tiles (offset : Nat) (cs : List Char) :
    ∃ ts stop rest, Tiles offset cs ts stop rest ∧ Piece.next? rest = none ∧
      lexFrom offset cs =
        if rest = [] then .ok ts else .error ⟨String.ofList (unrecognized rest), stop⟩ := by
  cases hnext : Piece.next? cs with
  | none =>
      refine ⟨[], offset, cs, .gap .nil, hnext, ?_⟩
      rw [lexFrom]
      simp only [List.isEmpty_iff]
      split
      · rfl
      · split
        · rfl
        · next p hsome => cases hnext.symm.trans hsome
  | some p =>
      have hshorter := Piece.rest_length_lt hnext
      obtain ⟨ts, stop, rest, htiles, hend, hlex⟩ :=
        exists_tiles (offset + byteLength p.text) p.rest
      refine ⟨p.prepend offset ts, stop, rest, ?_, hend, ?_⟩
      · cases hk : p.kind with
        | none =>
            rw [Piece.prepend, hk]
            exact htiles.skip hnext hk
        | some k =>
            rw [Piece.prepend, hk]
            exact htiles.cons hnext hk
      · rw [lexFrom_of_next? hnext, hlex]
        split <;> rfl
termination_by cs.length

/-! ## The places of tokens and gaps -/

/-- From a byte offset on, a text is `cs`. -/
def FromByte (text : List Char) (offset : Nat) (cs : List Char) : Prop :=
  ∃ before, text = before ++ cs ∧ byteLength before = offset

theorem FromByte.append {text cs ds : List Char} {offset : Nat}
    (h : FromByte text offset (cs ++ ds)) : FromByte text (offset + byteLength cs) ds := by
  obtain ⟨before, rfl, rfl⟩ := h
  exact ⟨before ++ cs, by rw [List.append_assoc], byteLength_append before cs⟩

/-- Where the gaps around tokens start and stop, from one byte offset to another. -/
def gapsAround : Nat → List Token → Nat → List (Nat × Nat)
  | offset, [], stop => [(offset, stop)]
  | offset, t :: ts, stop => (offset, t.start) :: gapsAround t.stop ts stop

/-- Tokens tile a text from one byte offset to another: they do not overlap, each is the longest
token where it starts, and what is left around them are blanks and comments. -/
structure Tiling (text : List Char) (offset : Nat) (ts : List Token) (stop : Nat) : Prop where
  nonempty : ∀ t ∈ ts, t.start < t.stop
  ordered : ts.Pairwise fun t u => t.stop ≤ u.start
  longest : ∀ t ∈ ts, ∃ after, FromByte text t.start (t.text.toList ++ after) ∧
    t.kind.Longest t.text.toList (t.text.toList ++ after)
  gaps : ∀ g ∈ gapsAround offset ts stop, ∃ gap after, FromByte text g.1 (gap ++ after) ∧
    g.2 = g.1 + byteLength gap ∧ IsGap after gap

theorem Token.Kind.Matches.ne_nil {k : Token.Kind} {w : List Char} (h : k.Matches w) : w ≠ [] := by
  rintro rfl
  obtain ⟨p, hnext, -⟩ := Piece.exists_next?_beats h []
  cases hnext

theorem Token.start_add_byteLength (t : Token) : t.start + byteLength t.text.toList = t.stop := by
  rw [byteLength_toList, stop]

theorem Token.start_lt_stop {t : Token} (h : t.text.toList ≠ []) : t.start < t.stop := by
  have hpos := List.length_pos_of_ne_nil h
  have hlength := length_le_byteLength t.text.toList
  have hstop := t.start_add_byteLength
  omega

namespace Tiles

variable {text cs rest : List Char} {offset stop : Nat} {ts : List Token}

/-- No token starts in front of the tiles. -/
theorem le_start (h : Tiles offset cs ts stop rest) : ∀ t ∈ ts, offset ≤ t.start := by
  induction h with
  | gap _ => exact fun _ ht => nomatch ht
  | token _ hstart _ _ ih =>
      have hle := hstart ▸ Nat.le_add_right ..
      refine List.forall_mem_cons.mpr ⟨hle, fun u hu => ?_⟩
      exact hle.trans ((Nat.le_add_right ..).trans (ih u hu))

/-- What is left behind the tiles is what the text goes on with where they stop. -/
theorem fromByte (h : Tiles offset cs ts stop rest) (hcs : FromByte text offset cs) :
    FromByte text stop rest := by
  induction h with
  | gap _ => exact hcs.append
  | @token offset _ gap after _ t _ _ hstart _ _ ih =>
      have hstop : offset + byteLength gap + byteLength t.text.toList = t.stop :=
        hstart ▸ t.start_add_byteLength
      exact ih (hstop ▸ hcs.append.append)

/-- Tiles of what a text goes on with have their places in the whole text. -/
theorem tiling (h : Tiles offset cs ts stop rest) (hcs : FromByte text offset cs) :
    Tiling text offset ts stop := by
  induction h with
  | gap hgap =>
      refine ⟨nofun, .nil, nofun, List.forall_mem_singleton.mpr ?_⟩
      exact ⟨_, _, hcs, rfl, hgap⟩
  | @token offset _ gap after _ t _ hgap hstart hlongest hts ih =>
      have hstop : offset + byteLength gap + byteLength t.text.toList = t.stop :=
        hstart ▸ t.start_add_byteLength
      have hnonempty := (Token.Kind.mem_pattern_iff.mp hlongest.matched).ne_nil
      have hafter := ih (hstop ▸ hcs.append.append)
      exact
        { nonempty := List.forall_mem_cons.mpr ⟨Token.start_lt_stop hnonempty, hafter.nonempty⟩
          ordered := List.pairwise_cons.mpr ⟨hts.le_start, hafter.ordered⟩
          longest := List.forall_mem_cons.mpr
            ⟨⟨after, hstart ▸ hcs.append, hlongest⟩, hafter.longest⟩
          gaps := List.forall_mem_cons.mpr ⟨⟨gap, _, hcs, hstart, hgap⟩, hafter.gaps⟩ }

end Tiles

/-- The tokens of a text tile it with longest matches, and all that is left out are blanks and
comments.  A text without tokens is tiled like this up to the place of the error, and there it
neither goes on with a token nor with anything to skip. -/
theorem lex_tiles (code : String) :
    (∀ ts, lex code = .ok ts → Tiling code.toList 0 ts code.utf8ByteSize) ∧
      ∀ e, lex code = .error e → ∃ ts rest, Tiling code.toList 0 ts e.offset ∧
        FromByte code.toList e.offset rest ∧ rest ≠ [] ∧
          ∀ w, w <+: rest → (∀ k : Token.Kind, w ∉ k.pattern) ∧ ∀ s : Skip, w ∉ s.pattern := by
  have hstart : FromByte code.toList 0 code.toList := ⟨[], rfl, rfl⟩
  obtain ⟨ts, stop, rest, htiles, hend, hlex⟩ := exists_tiles 0 code.toList
  have htiling := htiles.tiling hstart
  have hrest := htiles.fromByte hstart
  rw [lex, hlex]
  split
  · next hempty =>
      obtain ⟨before, hbefore, hstop⟩ := hrest
      have hsize : stop = code.utf8ByteSize := by
        rw [← hstop, ← code.ofList_toList, hbefore, hempty, List.append_nil, byteLength_ofList]
      constructor
      · rintro _ ⟨⟩
        exact hsize ▸ htiling
      · rintro _ ⟨⟩
  · next hempty =>
      constructor
      · rintro _ ⟨⟩
      · rintro _ ⟨⟩
        exact ⟨ts, rest, htiling, hrest, hempty, fun w => Piece.no_pattern hend⟩

end SwitchHoist
