import SwitchHoist.Proofs.Tiling

/-!
# Rows of a text

The rows of a text are what stands between its line ends, and the row of a place can be found by
passing the line ends in front of it one after another.  A position says the same: its row is the
number of line ends in front of the place, its column the number of bytes since the last of them,
and its line is the row with that number, `Position.marks_locate`.

This takes that the place is one of a text without line ends.  In front of a line end, or if such a
text ended with the carriage return of one, the line would be cut before the place is reached.
-/

namespace SwitchHoist

/-- The byte offsets of the line ends of a text that starts at a byte offset. -/
def lineEnds : Nat → List Char → List Nat
  | _, [] => []
  | offset, c :: cs =>
      if c = '\n' then offset :: lineEnds (offset + c.utf8Size) cs
      else lineEnds (offset + c.utf8Size) cs

/-- Passes line ends until one is behind a place, from a row and the byte offset where it starts. -/
def rowScan (place : Nat) : List Nat → Nat × Nat → Nat × Nat
  | [], r => r
  | e :: es, r => if place < e then r else rowScan place es (r.1 + 1, e + 1)

/-- The rows of a text.  A carriage return in front of a line end belongs to the line end, and behind
the last line end there is a row only if there is text. -/
def textRows (cs : List Char) : List (List Char) :=
  (cs.splitOn '\n').dropLast.map dropCarriageReturn ++
    (cs.splitOn '\n').getLast?.toList.filter (· ≠ [])

/-! ## Line ends -/

theorem lineEnds_append (offset : Nat) (cs ds : List Char) :
    lineEnds offset (cs ++ ds) = lineEnds offset cs ++ lineEnds (offset + byteLength cs) ds := by
  induction cs generalizing offset with
  | nil => rfl
  | cons c cs ih =>
      simp only [List.cons_append, lineEnds, ih, byteLength, Nat.add_assoc]
      split <;> rfl

theorem lineEnds_eq_nil {cs : List Char} (h : '\n' ∉ cs) (offset : Nat) :
    lineEnds offset cs = [] := by
  induction cs generalizing offset with
  | nil => rfl
  | cons c cs ih =>
      rw [List.mem_cons, not_or] at h
      rw [lineEnds, if_neg (Ne.symm h.1), ih h.2]

theorem length_lineEnds (offset : Nat) (cs : List Char) :
    (lineEnds offset cs).length = cs.count '\n' := by
  induction cs generalizing offset with
  | nil => rfl
  | cons c cs ih =>
      rw [lineEnds, List.count_cons]
      split
      · next hc => simp [ih, hc]
      · next hc => simp [ih, hc]

/-- Line ends lie in the text. -/
theorem mem_lineEnds {offset e : Nat} {cs : List Char} (h : e ∈ lineEnds offset cs) :
    offset ≤ e ∧ e < offset + byteLength cs := by
  induction cs generalizing offset with
  | nil => cases h
  | cons c cs ih =>
      have hsize := c.utf8Size_pos
      rw [byteLength]
      rw [lineEnds] at h
      split at h
      · rcases List.mem_cons.mp h with rfl | h
        · omega
        · have := ih h
          omega
      · have := ih h
        omega

section Scan

variable {place : Nat} {es fs : List Nat}

theorem rowScan_append (h : ∀ e ∈ es, e ≤ place) (r : Nat × Nat) :
    rowScan place (es ++ fs) r =
      rowScan place fs (r.1 + es.length, (es.getLast?.map (· + 1)).getD r.2) := by
  induction es generalizing r with
  | nil => rfl
  | cons e es ih =>
      rw [List.forall_mem_cons] at h
      rw [List.cons_append, rowScan, if_neg (Nat.not_lt.mpr h.1), ih h.2]
      cases es with
      | nil => rfl
      | cons e' es => simp [Nat.add_assoc, Nat.add_comm 1, List.getLast?_eq_some_getLast]

theorem rowScan_of_lt (h : ∀ e ∈ es, place < e) (r : Nat × Nat) : rowScan place es r = r := by
  cases es with
  | nil => rfl
  | cons e es => exact if_pos (h e (List.mem_cons_self ..))

end Scan

/-! ## Rows -/

/-- A text that no row goes on behind: none, or one that ends with a line end. -/
def EndsRow (rows : List Char) : Prop :=
  rows = [] ∨ ∃ before, rows = before ++ ['\n']

/-- What stands in front of a place are complete rows and the start of a row. -/
theorem exists_rows (before : List Char) :
    ∃ rows, before = rows ++ lastRow before ∧ EndsRow rows ∧ '\n' ∉ lastRow before ∧
      before.count '\n' = rows.count '\n' := by
  have hsplit : before.reverse.takeWhile (· != '\n') ++ before.reverse.dropWhile (· != '\n') =
      before.reverse := List.takeWhile_append_dropWhile
  have hlast : '\n' ∉ lastRow before := by
    rw [lastRow, List.mem_reverse]
    exact not_mem_takeWhile_lineEnd before.reverse
  have hbefore : before = (before.reverse.dropWhile (· != '\n')).reverse ++ lastRow before := by
    rw [lastRow, ← List.reverse_append, hsplit, List.reverse_reverse]
  refine ⟨_, hbefore, ?_, hlast, ?_⟩
  · cases hdrop : before.reverse.dropWhile (· != '\n') with
    | nil => exact Or.inl rfl
    | cons c rest =>
        obtain rfl : c = '\n' := head?_dropWhile_lineEnd before.reverse c (by rw [hdrop]; rfl)
        exact Or.inr ⟨rest.reverse, List.reverse_cons⟩
  · have hcount := congrArg (List.count '\n') hbefore
    rwa [List.count_append, List.count_eq_zero.mpr hlast, Nat.add_zero] at hcount

/-- The rest of a row, and what follows it: nothing, or a line end. -/
theorem exists_rest_of_row (behind : List Char) :
    ∃ ending, behind = behind.takeWhile (· != '\n') ++ ending ∧
      (∀ c ∈ ending.head?, c = '\n') ∧ '\n' ∉ behind.takeWhile (· != '\n') :=
  ⟨behind.dropWhile (· != '\n'), List.takeWhile_append_dropWhile.symm,
    head?_dropWhile_lineEnd behind, not_mem_takeWhile_lineEnd behind⟩

section Rows

variable {rows line ending : List Char}

/-- The row of a place and its start are found behind the complete rows. -/
theorem rowScan_lineEnds {place : Nat} (hrows : EndsRow rows) (hplace : byteLength rows ≤ place)
    (hline : '\n' ∉ line) (hbehind : place < byteLength (rows ++ line)) :
    rowScan place (lineEnds 0 (rows ++ (line ++ ending))) (0, 0) =
      (rows.count '\n', byteLength rows) := by
  rw [byteLength_append] at hbehind
  rw [lineEnds_append, lineEnds_append, lineEnds_eq_nil hline, List.nil_append, rowScan_append,
    rowScan_of_lt]
  · rw [Nat.zero_add, length_lineEnds]
    rcases hrows with rfl | ⟨before, rfl⟩
    · rfl
    · rw [lineEnds_append, byteLength_append]
      simp [lineEnds, byteLength, show '\n'.utf8Size = 1 from rfl]
  · intro e he
    have hafter := (mem_lineEnds he).1
    omega
  · intro e he
    have hbefore := (mem_lineEnds he).2
    omega

theorem length_splitOn (cs : List Char) : (cs.splitOn '\n').length = cs.count '\n' + 1 := by
  induction cs with
  | nil => rfl
  | cons c cs ih =>
      rw [List.splitOn_cons_eq_if_modifyHead, List.count_cons]
      split
      · rw [List.length_cons, ih]
      · rw [List.length_modifyHead, ih, Nat.add_zero]

/-- Complete rows are rows of the text, whatever follows them. -/
theorem textRows_append (hrows : EndsRow rows) (cs : List Char) :
    ∃ complete : List (List Char), complete.length = rows.count '\n' ∧
      textRows (rows ++ cs) = complete ++ textRows cs := by
  rcases hrows with rfl | ⟨before, rfl⟩
  · exact ⟨[], rfl, rfl⟩
  · refine ⟨(before.splitOn '\n').map dropCarriageReturn, ?_, ?_⟩
    · rw [List.length_map, length_splitOn, List.count_append, List.count_singleton_self]
    · have hne := List.splitOn_ne_nil '\n' cs
      rw [List.append_assoc, List.singleton_append, textRows, List.splitOn_append_cons_self,
        List.dropLast_append_of_ne_nil hne, List.getLast?_append_of_ne_nil _ hne, List.map_append,
        List.append_assoc, textRows]

/-- The row that goes on to a line end, or to the end of the text. -/
theorem head?_textRows (hne : line ≠ []) (hline : '\n' ∉ line)
    (hend : ∀ c ∈ ending.head?, c = '\n') :
    (textRows (line ++ ending)).head? =
      some (if ending = [] then line else dropCarriageReturn line) := by
  cases ending with
  | nil =>
      rw [List.append_nil, textRows, List.splitOn_eq_singleton hline]
      simp [hne]
  | cons c cs =>
      obtain rfl := hend c rfl
      have hcs := List.splitOn_ne_nil '\n' cs
      rw [textRows, List.splitOn_append_cons_self_of_not_mem hline,
        List.dropLast_cons_of_ne_nil hcs]
      rfl

/-- The carriage return behind the last line end stays, as no line end follows it. -/
example : textRows "a\r\n\nb\r".toList = ["a".toList, [], "b\r".toList] := by
  decide

/-- Around a place a row goes on to a line end, or to the end of the text. -/
theorem rowAround_append (before : List Char) (hline : '\n' ∉ line)
    (hend : ∀ c ∈ ending.head?, c = '\n') :
    rowAround before (line ++ ending) =
      if ending = [] then lastRow before ++ line else dropCarriageReturn (lastRow before ++ line) := by
  have hpos : ∀ c ∈ line, (c != '\n') = true := fun c hc =>
    bne_iff_ne.mpr fun heq => hline (heq ▸ hc)
  rw [rowAround, List.takeWhile_append_of_pos hpos]
  cases ending with
  | nil => simp [hline]
  | cons c cs =>
      obtain rfl := hend c rfl
      simp

end Rows

/-! ## The row of a place -/

section Place

variable (before behind : List Char) {c : Char}

/-- The row around a place is the row of the text with its number. -/
theorem textRows_place (hc : c ≠ '\n') :
    (textRows (before ++ c :: behind))[before.count '\n']? = some (rowAround before (c :: behind)) := by
  obtain ⟨rows, hbefore, hcomplete, hfront, hcount⟩ := exists_rows before
  obtain ⟨ending, hbehind, hend, hrest⟩ := exists_rest_of_row behind
  generalize behind.takeWhile (· != '\n') = rest at hbehind hrest
  have hline : '\n' ∉ c :: rest := by simp [hc.symm, hrest]
  have hrow : '\n' ∉ lastRow before ++ c :: rest := by simp [hfront, hc.symm, hrest]
  have htext : before ++ c :: behind = rows ++ (lastRow before ++ c :: rest ++ ending) := by
    rw [hbehind, List.append_assoc, ← List.append_assoc rows, ← hbefore, List.cons_append]
  obtain ⟨complete, hlength, hrows⟩ := textRows_append hcomplete (lastRow before ++ c :: rest ++ ending)
  rw [htext, hrows, hcount, ← hlength, List.getElem?_append_right (Nat.le_refl _), Nat.sub_self,
    ← List.head?_eq_getElem?, head?_textRows (by simp) hrow hend, hbehind, ← List.cons_append,
    rowAround_append before hline hend]

/-- Passing the line ends up to a place leads to its row and to the start of it. -/
theorem rowScan_place (hc : c ≠ '\n') :
    ∃ rowStart, rowScan (byteLength before) (lineEnds 0 (before ++ c :: behind)) (0, 0) =
        (before.count '\n', rowStart) ∧
      rowStart + byteLength (lastRow before) = byteLength before := by
  obtain ⟨rows, hbefore, hcomplete, hfront, hcount⟩ := exists_rows before
  have hlength : byteLength before = byteLength rows + byteLength (lastRow before) := by
    rw [← byteLength_append, ← hbefore]
  have hline : '\n' ∉ lastRow before ++ [c] := by simp [hfront, hc.symm]
  have htext : before ++ c :: behind = rows ++ (lastRow before ++ [c] ++ behind) := by
    rw [List.append_assoc, ← List.append_assoc rows, ← hbefore, List.singleton_append]
  refine ⟨byteLength rows, ?_, hlength.symm⟩
  rw [htext, hcount]
  refine rowScan_lineEnds hcomplete (hlength ▸ Nat.le_add_right ..) hline ?_
  have hsize := c.utf8Size_pos
  simp only [byteLength_append, byteLength]
  omega

end Place

/-! ## Positions -/

/-- Nothing of a text is lost with a carriage return behind it. -/
theorem exists_dropCarriageReturn {front w : List Char} (hne : w ≠ []) (hw : w.getLast? ≠ some '\r')
    (rest : List Char) :
    ∃ rest', dropCarriageReturn (front ++ (w ++ rest)) = front ++ (w ++ rest') := by
  unfold dropCarriageReturn
  split
  · next hlast =>
      cases rest with
      | nil =>
          rw [List.append_nil, List.getLast?_append_of_ne_nil _ hne] at hlast
          exact absurd hlast hw
      | cons c rest =>
          refine ⟨(c :: rest).dropLast, ?_⟩
          rw [← List.append_assoc, List.dropLast_append_of_ne_nil (List.cons_ne_nil c rest),
            List.append_assoc]
  · exact ⟨rest, rfl⟩

/-- The row around a text goes on with it behind what stands in front of it in the row. -/
theorem exists_rowAround (before behind : List Char) {w : List Char} (hne : w ≠ []) (hline : '\n' ∉ w)
    (hlast : w.getLast? ≠ some '\r') :
    ∃ rest, rowAround before (w ++ behind) = lastRow before ++ (w ++ rest) := by
  obtain ⟨ending, hbehind, hend, hrest⟩ := exists_rest_of_row behind
  generalize behind.takeWhile (· != '\n') = rest at hbehind hrest
  rw [hbehind, ← List.append_assoc, rowAround_append before (by simp [hline, hrest]) hend]
  split
  · exact ⟨rest, rfl⟩
  · exact exists_dropCarriageReturn hne hlast rest

/-- What a position says of the text `w` at a byte offset: in front of it are complete rows and
then `front`, which stands in the same row.  The row is the number of line ends in front of the
offset, the column the number of bytes since the last of them, and the line is the row with that
number, which goes on with `w` behind so many bytes.  Passing the line ends up to the offset leads
to the same row, and to a start of it that is not behind the offset. -/
structure Position.Marks (place : Position) (code : List Char) (offset : Nat)
    (rows front w : List Char) : Prop where
  text : ∃ behind, code = rows ++ front ++ (w ++ behind)
  length : byteLength (rows ++ front) = offset
  complete : EndsRow rows
  inRow : '\n' ∉ front ++ w
  row : place.row = (rows ++ front).count '\n'
  column : place.column = byteLength front
  line : (textRows code)[place.row]? = some place.line.toList
  quoted : ∃ rest, place.line.toList = front ++ (w ++ rest)
  scanned : ∃ rowStart, rowScan offset (lineEnds 0 code) (0, 0) = (place.row, rowStart) ∧
    rowStart ≤ offset ∧ place.column = offset - rowStart

/-- A position marks a text without line ends, unless this ends with what belongs to a line end. -/
theorem Position.marks_locate {code : String} {before w behind : List Char}
    (hcode : code.toList = before ++ (w ++ behind)) (hne : w ≠ []) (hline : '\n' ∉ w)
    (hlast : w.getLast? ≠ some '\r') :
    ∃ rows front, (locate code (byteLength before)).Marks code.toList (byteLength before) rows
      front w := by
  have hlocate : locate code (byteLength before) = ⟨before.count '\n', byteLength (lastRow before),
      String.ofList (rowAround before (w ++ behind))⟩ := by
    rw [locate, hcode, splitAtByte_byteLength]
  obtain ⟨rows, hbefore, hcomplete, hfront, -⟩ := exists_rows before
  obtain ⟨rest, hquoted⟩ := exists_rowAround before behind hne hline hlast
  obtain ⟨c, v, hw⟩ := List.exists_cons_of_ne_nil hne
  have hc : c ≠ '\n' := fun hc => hline (by simp [hw, hc])
  obtain ⟨rowStart, hscan, hstart⟩ := rowScan_place before (v ++ behind) hc
  refine ⟨rows, lastRow before, ?_⟩
  rw [hlocate]
  exact
    { text := ⟨behind, by rw [hcode, ← hbefore]⟩
      length := by rw [← hbefore]
      complete := hcomplete
      inRow := by simp [hfront, hline]
      row := by rw [← hbefore]
      column := rfl
      line := by
        rw [String.toList_ofList, hcode, hw, List.cons_append]
        exact textRows_place before (v ++ behind) hc
      quoted := ⟨rest, by rw [String.toList_ofList, hquoted]⟩
      scanned := ⟨rowStart, by rw [hcode, hw, List.cons_append, hscan], by omega, by
        change byteLength (lastRow before) = byteLength before - rowStart
        omega⟩ }

end SwitchHoist
