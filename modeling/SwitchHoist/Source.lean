/-!
# Places in a source text

A message about a source text names the row and the column of a place and
quotes the row.  Rows and columns count from zero and columns count bytes, so a
column is also the number of blanks that put a caret under an ASCII row.
-/

namespace SwitchHoist

/-- A place in a text: its row, its column, and the row as text. -/
structure Position where
  row : Nat
  column : Nat
  line : String
  deriving DecidableEq, Repr

/-- The number of bytes that characters take in a source text. -/
def byteLength : List Char → Nat
  | [] => 0
  | c :: rest => c.utf8Size + byteLength rest

@[simp] theorem byteLength_append (cs ds : List Char) :
    byteLength (cs ++ ds) = byteLength cs + byteLength ds := by
  induction cs with
  | nil => simp [byteLength]
  | cons c rest ih => simp [byteLength, ih, Nat.add_assoc]

/-- Every character takes at least one byte. -/
theorem length_le_byteLength (cs : List Char) : cs.length ≤ byteLength cs := by
  induction cs with
  | nil => simp
  | cons c rest ih =>
      have hpos := c.utf8Size_pos
      simp only [byteLength, List.length_cons]
      omega

/-- The bytes of a string are those of its characters. -/
theorem byteLength_ofList (cs : List Char) : byteLength cs = (String.ofList cs).utf8ByteSize := by
  induction cs with
  | nil => simp [byteLength]
  | cons c rest ih =>
      have hsplit : String.ofList (c :: rest) = String.ofList [c] ++ String.ofList rest := by
        rw [← String.ofList_append]
        rfl
      have hone : (String.ofList [c]).utf8ByteSize = c.utf8Size := by
        rw [← String.singleton_eq_ofList, String.utf8ByteSize_singleton]
      rw [byteLength, ih, hsplit, String.utf8ByteSize_append, hone]

theorem byteLength_toList (s : String) : byteLength s.toList = s.utf8ByteSize := by
  rw [byteLength_ofList, String.ofList_toList]

theorem byteLength_eq_zero {cs : List Char} : byteLength cs = 0 ↔ cs = [] := by
  constructor
  · intro h
    have hlength := length_le_byteLength cs
    exact List.length_eq_zero_iff.mp (by omega)
  · rintro rfl
    rfl

/-- The characters that start before a byte offset, and those that do not. -/
def splitAtByte : Nat → List Char → List Char × List Char
  | 0, cs => ([], cs)
  | _ + 1, [] => ([], [])
  | n + 1, c :: rest =>
      let r := splitAtByte (n + 1 - c.utf8Size) rest
      (c :: r.1, r.2)

theorem splitAtByte_append (n : Nat) (cs : List Char) :
    (splitAtByte n cs).1 ++ (splitAtByte n cs).2 = cs := by
  induction cs generalizing n with
  | nil => cases n <;> rfl
  | cons c rest ih => cases n <;> simp [splitAtByte, ih]

/-- At the byte behind a piece of text, the text is cut behind that piece. -/
theorem splitAtByte_byteLength (cs ds : List Char) :
    splitAtByte (byteLength cs) (cs ++ ds) = (cs, ds) := by
  induction cs with
  | nil => simp [byteLength, splitAtByte]
  | cons c rest ih =>
      obtain ⟨n, hn⟩ : ∃ n, c.utf8Size + byteLength rest = n + 1 :=
        ⟨c.utf8Size + byteLength rest - 1, by have := c.utf8Size_pos; omega⟩
      have hrest : n + 1 - c.utf8Size = byteLength rest := by omega
      simp [byteLength, hn, splitAtByte, hrest, ih]

/-- The last row of a text, without the line ends before it. -/
def lastRow (cs : List Char) : List Char :=
  (cs.reverse.takeWhile (· != '\n')).reverse

/-- A carriage return in front of a line end belongs to the line end. -/
def dropCarriageReturn (cs : List Char) : List Char :=
  if cs.getLast? = some '\r' then cs.dropLast else cs

/-- The row that a place stands in, from the text before and behind the place. -/
def rowAround (before behind : List Char) : List Char :=
  let row := lastRow before ++ behind.takeWhile (· != '\n')
  if behind.contains '\n' then dropCarriageReturn row else row

/-- The position of a byte offset in a text. -/
def Position.locate (code : String) (offset : Nat) : Position :=
  let (before, behind) := splitAtByte offset code.toList
  { row := before.count '\n'
    column := byteLength (lastRow before)
    line := String.ofList (rowAround before behind) }

end SwitchHoist
