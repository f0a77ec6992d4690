import SwitchHoist.Proofs.ParserAgreement
import SwitchHoist.Proofs.TiledTexts

/-!
# Layout between tokens

Blanks and comments that are put in front of a token or behind one change neither the tokens of a
text nor the program that it spells.  The tokens from there on stand as many bytes further as were
put in, and nothing else about them is new.

The tokens are those of a tiling, so what has to be seen is that the tiles around the new text are
still tiles.  A token stays the longest one where it starts: nothing longer can run into the layout,
as layout starts with a character that no token but a string has, and a string does not depend on
what follows it.  A gap stays a gap: the only thing in it that depends on what follows is a comment
behind `//`, and in front of a token such a comment has its line end in the gap.
-/

namespace SwitchHoist

open scoped Computability
open Pattern

/-- Blanks, comments behind `//` with their line ends, and comments between `/*` and `*/`, one
behind the other. -/
def Pattern.layout : Language Char :=
  (Skip.blanks.pattern + Skip.lineComment.pattern * exactly "\n" + Skip.blockComment.pattern)∗

/-! ## Layout and gaps -/

namespace IsGap

variable {after after' gap w : List Char}

/-- Layout in front of a gap is one gap with it. -/
theorem layout (hw : w ∈ layout) (h : IsGap after gap) : IsGap after (w ++ gap) := by
  refine kstar_induction (P := fun w => IsGap after (w ++ gap)) h ?_ hw
  rintro u v hu - hv
  rw [List.append_assoc]
  rcases hu with (hblanks | hline) | hblock
  · exact hv.blanks fun c hc => mem_blank_iff.mp ((mem_many_oneOf.mp hblanks).2 c hc)
  · obtain ⟨comment, hcomment, rfl⟩ := mem_mul_exactly.mp hline
    obtain ⟨line, hchars, rfl⟩ := mem_exactly_mul.mp hcomment
    have hend : '\n' ∉ line := fun hmem => mem_kstar_oneOf.mp hchars _ hmem rfl
    rw [List.append_assoc]
    refine .lineComment hend ?_ (.blank (mem_blank_iff.mpr rfl) hv)
    rintro c ⟨⟩
    rfl
  · obtain ⟨body, hbody, rfl⟩ := Skip.mem_blockComment_iff.mp hblock
    exact .blockComment hbody hv

/-- Of what follows a gap, only the first character matters. -/
theorem of_head (h : IsGap after gap) (hhead : after.head? = after'.head?) : IsGap after' gap := by
  induction h with
  | nil => exact .nil
  | blank hc _ ih => exact .blank hc ih
  | lineComment hline hend _ ih =>
      rw [List.head?_append, hhead, ← List.head?_append] at hend
      exact .lineComment hline hend ih
  | blockComment hbody _ ih => exact .blockComment hbody ih

/-- Two gaps are one, if the first does not end with a comment that is open to the line end. -/
theorem append {c : Char} (h : IsGap (c :: after) gap) (hc : c ≠ '\n') (hw : IsGap after' w) :
    IsGap after' (gap ++ w) := by
  induction h with
  | nil => exact hw
  | blank hc _ ih => exact .blank hc ih
  | @lineComment line gap hline hend _ ih =>
      rw [List.append_assoc]
      refine .lineComment hline ?_ ih
      cases gap with
      | nil => exact absurd (hend c rfl) hc
      | cons d gap => exact hend
  | @blockComment body gap hbody _ ih =>
      rw [List.append_assoc _ gap]
      exact .blockComment hbody ih

theorem head (h : IsGap after gap) : ∀ c ∈ gap.head?, isBlank c = true ∨ c = '/' := by
  rintro c hc
  cases h with
  | nil => cases hc
  | blank hblank _ =>
      cases hc
      exact Or.inl (mem_blank_iff.mp hblank)
  | lineComment _ _ _ =>
      cases hc
      exact Or.inr rfl
  | blockComment _ _ =>
      cases hc
      exact Or.inr rfl

end IsGap

/-- Layout is a gap in front of anything. -/
theorem isGap_of_mem_layout {w : List Char} (hw : w ∈ layout) (after : List Char) :
    IsGap after w := by
  have hgap : IsGap after (w ++ []) := .layout hw .nil
  rwa [List.append_nil] at hgap

/-! ## Layout and longest tokens -/

theorem prefix_of_not_mem {xs ys zs : List Char} {d : Char} (h : xs <+: ys ++ d :: zs)
    (hd : d ∉ xs) : xs <+: ys := by
  induction ys generalizing xs with
  | nil =>
      cases xs with
      | nil => exact List.nil_prefix
      | cons x xs =>
          obtain ⟨rfl, -⟩ := List.cons_prefix_cons.mp h
          exact absurd (List.mem_cons_self ..) hd
  | cons y ys ih =>
      cases xs with
      | nil => exact List.nil_prefix
      | cons x xs =>
          obtain ⟨rfl, hxs⟩ := List.cons_prefix_cons.mp h
          exact List.cons_prefix_cons.mpr
            ⟨rfl, ih hxs fun hmem => hd (List.mem_cons_of_mem _ hmem)⟩

/-- A token stays the longest one where it starts when something to skip is put in anywhere behind
it. -/
theorem Token.Kind.Longest.insert {k : Token.Kind} {v before w after : List Char}
    (h : k.Longest v (v ++ (before ++ after)))
    (hw : ∀ c ∈ w.head?, isBlank c = true ∨ c = '/') :
    k.Longest v (v ++ (before ++ (w ++ after))) := by
  have hmatches := mem_pattern_iff.mp h.matched
  by_cases hstring : k = .string
  · subst hstring
    exact Piece.next?_longest (hmatches.next?_string _) rfl
  refine ⟨List.prefix_append .., h.matched, fun k' v' hfront hmem => ?_, h.preferred⟩
  refine h.longest k' v' ?_ hmem
  have hmatches' := mem_pattern_iff.mp hmem
  cases w with
  | nil => exact hfront
  | cons d w =>
      obtain ⟨c, v, rfl⟩ := List.exists_cons_of_ne_nil hmatches.ne_nil
      have hplain := hmatches.isPlain hstring c (List.mem_cons_self ..)
      -- A longer token would be no string, as it starts with the same character.
      have hstring' : k' ≠ .string := by
        rintro rfl
        obtain ⟨u, rfl, -⟩ := hmatches'
        exact hplain.2.2 (List.cons_prefix_cons.mp hfront).1.symm
      have hd : d ∉ v' := fun hmem => by
        obtain ⟨hblank, hslash, -⟩ := hmatches'.isPlain hstring' d hmem
        rcases hw d rfl with hd | hd
        · cases hblank.symm.trans hd
        · exact hslash hd
      rw [← List.append_assoc] at hfront
      have hshort := prefix_of_not_mem hfront hd
      rw [← List.append_assoc]
      exact hshort.trans (List.prefix_append ..)

/-! ## Tokens that are moved -/

namespace Token

/-- A token that stands so many bytes further. -/
def moved (n : Nat) (t : Token) : Token :=
  { t with start := t.start + n }

/-- A token that stands so many bytes further unless it starts in front of a place. -/
def movedFrom (place n : Nat) (t : Token) : Token :=
  if place ≤ t.start then t.moved n else t

theorem lexeme_movedFrom (place n : Nat) (t : Token) :
    (t.movedFrom place n).lexeme = t.lexeme := by
  unfold movedFrom
  split <;> rfl

theorem stop_moved (n : Nat) (t : Token) : (t.moved n).stop = t.stop + n :=
  Nat.add_right_comm ..

theorem map_movedFrom {place : Nat} {ts : List Token} (h : ∀ t ∈ ts, place ≤ t.start) (n : Nat) :
    ts.map (movedFrom place n) = ts.map (moved n) :=
  List.map_congr_left fun t ht => if_pos (h t ht)

end Token

/-! ## Layout and tiles -/

theorem exists_append_of_byteLength_le {as bs cs ds : List Char} (h : as ++ bs = cs ++ ds)
    (hle : byteLength as ≤ byteLength cs) : ∃ es, cs = as ++ es ∧ bs = es ++ ds := by
  rcases List.append_eq_append_iff.mp h with hlonger | ⟨es, rfl, rfl⟩
  · exact hlonger
  · rw [byteLength_append] at hle
    obtain rfl : es = [] := byteLength_eq_zero.mp (by omega)
    exact ⟨[], (List.append_nil _).symm ▸ (List.append_nil _).symm, rfl⟩

namespace Tiles

variable {offset stop : Nat} {cs rest w : List Char} {ts : List Token}

theorem moved (h : Tiles offset cs ts stop rest) (n : Nat) :
    Tiles (offset + n) cs (ts.map (Token.moved n)) (stop + n) rest := by
  induction h with
  | gap hgap =>
      rw [Nat.add_right_comm]
      exact .gap hgap
  | @token offset stop gap after rest t ts hgap hstart hlongest _ ih =>
      rw [← t.stop_moved] at ih
      refine .token (t := t.moved n) hgap ?_ hlongest ih
      rw [Token.moved, hstart, Nat.add_right_comm]

/-- Layout in front of tiles goes with their first gap, and all tokens are moved. -/
theorem layout (hw : w ∈ layout) (h : Tiles offset cs ts stop rest) :
    Tiles offset (w ++ cs) (ts.map (Token.moved (byteLength w))) (stop + byteLength w) rest := by
  cases h with
  | @gap _ gap _ hgap =>
      have hskip : Tiles offset (w ++ gap ++ rest) [] (offset + byteLength (w ++ gap)) rest :=
        .gap (hgap.layout hw)
      rw [byteLength_append, Nat.add_comm (byteLength w), ← Nat.add_assoc, List.append_assoc] at hskip
      exact hskip
  | @token _ _ gap after _ t ts hgap hstart hlongest hts =>
      have hbehind := hts.moved (byteLength w)
      rw [← t.stop_moved] at hbehind
      rw [← List.append_assoc]
      refine .token (t := t.moved (byteLength w)) (hgap.layout hw) ?_ hlongest hbehind
      rw [Token.moved, hstart, byteLength_append, Nat.add_comm (byteLength w), Nat.add_assoc]

/-- Layout between a gap and the token behind it goes with the gap. -/
theorem layout_behind {gap after : List Char} {t : Token} (hw : w ∈ Pattern.layout)
    (hgap : IsGap (t.text.toList ++ after) gap) (hstart : t.start = offset + byteLength gap)
    (hlongest : t.kind.Longest t.text.toList (t.text.toList ++ after))
    (hts : Tiles t.stop after ts stop rest) :
    Tiles offset (gap ++ (w ++ (t.text.toList ++ after)))
      ((t :: ts).map (Token.moved (byteLength w))) (stop + byteLength w) rest := by
  have hmatches := Token.Kind.mem_pattern_iff.mp hlongest.matched
  have hgaps : IsGap (t.text.toList ++ after) (gap ++ w) := by
    obtain ⟨c, v, htext⟩ := List.exists_cons_of_ne_nil hmatches.ne_nil
    rw [htext] at hgap
    refine hgap.append ?_ (isGap_of_mem_layout hw _)
    rintro rfl
    cases (hmatches.head '\n' (by rw [htext]; rfl)).1
  have hbehind := hts.moved (byteLength w)
  rw [← t.stop_moved] at hbehind
  rw [← List.append_assoc]
  refine .token (t := t.moved (byteLength w)) hgaps ?_ hlongest hbehind
  rw [Token.moved, hstart, byteLength_append, Nat.add_assoc]

/-- Layout that is put in where a token starts or stops moves the tokens from there on. -/
theorem insert (hw : w ∈ Pattern.layout) (h : Tiles offset cs ts stop rest)
    {before after : List Char} (hcs : cs = before ++ after)
    (hplace : before = [] ∨ ∃ t ∈ ts,
      offset + byteLength before = t.start ∨ offset + byteLength before = t.stop) :
    Tiles offset (before ++ (w ++ after))
      (ts.map (Token.movedFrom (offset + byteLength before) (byteLength w)))
      (stop + byteLength w) rest := by
  induction h generalizing before with
  | gap hgap =>
      rcases hplace with rfl | ⟨t, ht, -⟩
      · exact (hcs ▸ Tiles.gap hgap).layout hw
      · cases ht
  | @token offset stop gap after' rest t ts hgap hstart hlongest hts ih =>
      have hall : ∀ u ∈ t :: ts, t.start ≤ u.start := List.forall_mem_cons.mpr
        ⟨Nat.le_refl _, fun u hu => (Nat.le_add_right ..).trans (hts.le_start u hu)⟩
      rcases hplace with rfl | ⟨u, hu, hplace⟩
      · have htiles := hcs ▸ Tiles.token hgap hstart hlongest hts
        rw [Token.map_movedFrom fun v hv => ?_]
        · exact htiles.layout hw
        · exact htiles.le_start v hv
      have hnonempty := (Token.Kind.mem_pattern_iff.mp hlongest.matched).ne_nil
      have hbetween := Token.start_lt_stop hnonempty
      have hstop := t.start_add_byteLength
      have hfrom := hall u hu
      have hustop : u.start ≤ u.stop := Nat.le_add_right ..
      by_cases hbefore : byteLength before ≤ byteLength gap
      -- The layout comes behind the gap.
      · obtain ⟨es, rfl, rfl⟩ := exists_append_of_byteLength_le hcs.symm hbefore
        rw [byteLength_append] at hstart
        obtain rfl : es = [] := byteLength_eq_zero.mp (by omega)
        rw [List.append_nil] at hgap
        rw [Token.map_movedFrom fun v hv => ?_]
        · exact layout_behind hw hgap hstart hlongest hts
        · have := hall v hv
          omega
      -- The layout comes behind the token, or further on.
      · have hle : byteLength (gap ++ t.text.toList) ≤ byteLength before := by
          rw [byteLength_append]
          rcases List.mem_cons.mp hu with rfl | hu
          · omega
          · have := hts.le_start u hu
            omega
        rw [← List.append_assoc] at hcs
        obtain ⟨before, rfl, rfl⟩ := exists_append_of_byteLength_le hcs hle
        have hplaces : offset + byteLength (gap ++ t.text.toList ++ before) =
            t.stop + byteLength before := by
          rw [byteLength_append, byteLength_append]
          omega
        rw [hplaces] at hplace ⊢
        have hbehind := ih (rfl : before ++ after = before ++ after) <| by
          rcases List.mem_cons.mp hu with rfl | hu
          · exact Or.inl (byteLength_eq_zero.mp (by omega))
          · exact Or.inr ⟨u, hu, hplace⟩
        have hkept : t.movedFrom (t.stop + byteLength before) (byteLength w) = t :=
          if_neg (by omega)
        obtain ⟨c, v, htext⟩ := List.exists_cons_of_ne_nil hnonempty
        rw [List.map_cons, hkept, List.append_assoc, List.append_assoc]
        refine .token (hgap.of_head ?_) hstart (hlongest.insert ?_) hbehind
        · rw [htext]
          rfl
        · exact (isGap_of_mem_layout hw []).head

end Tiles

/-! ## Layout and programs -/

section Inserted

variable {before w after : String} {ts : List Token}

theorem lex_insert (hlex : lex (before ++ after) = .ok ts)
    (hplace : ∃ t ∈ ts, before.utf8ByteSize = t.start ∨ before.utf8ByteSize = t.stop)
    (hw : w.toList ∈ Pattern.layout) :
    lex (before ++ w ++ after) =
      .ok (ts.map (Token.movedFrom before.utf8ByteSize w.utf8ByteSize)) := by
  obtain ⟨stop, htiles⟩ := lexFrom_eq_ok_iff.mp hlex
  have hsplit : (before ++ after).toList = before.toList ++ after.toList := String.toList_append
  have hinserted := htiles.insert hw hsplit (Or.inr <| by rwa [Nat.zero_add, byteLength_toList])
  rw [Nat.zero_add, byteLength_toList, byteLength_toList, ← List.append_assoc, ← String.toList_append,
    ← String.toList_append] at hinserted
  exact lexFrom_eq_ok_iff.mpr ⟨_, hinserted⟩

end Inserted

end SwitchHoist
