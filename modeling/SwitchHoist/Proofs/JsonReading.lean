import SwitchHoist.Proofs.JsonTexts

/-!
# Reading the texts of JSON values

Every text of a value is read as this value, with any characters behind it.  Nothing of a string
gets lost by escaping it.  The bound of a reader is large enough if it is no less than the length
of the text.
-/

namespace SwitchHoist

namespace Json

/-! ## Blanks -/

theorem Blank.skipSpaces_append {ws : List Char} (h : Blank ws) (cs : List Char) :
    skipSpaces (ws ++ cs) = skipSpaces cs :=
  List.dropWhile_append_of_pos h

theorem skipSpaces_cons {c : Char} (h : isSpace c = false) (cs : List Char) :
    skipSpaces (c :: cs) = c :: cs := by
  simp [skipSpaces, h]

theorem Blank.valueWithin?_append {ws : List Char} (h : Blank ws) (n : Nat) (cs : List Char) :
    valueWithin? n (ws ++ cs) = valueWithin? n cs := by
  cases n with
  | zero => rfl
  | succ n => rw [valueWithin?, valueWithin?, h.skipSpaces_append]

/-! ## Strings -/

theorem hexCode?_hexDigit :
    ∀ n < 32, hexCode? '0' '0' (hexDigit (n / 16)) (hexDigit (n % 16)) = some n := by
  decide

/-- What a character is written as is read as one element, and this element spells the
character. -/
theorem exists_element (c : Char) : ∃ e,
    (∀ cs, elements? (escape c ++ cs) = (elements? cs).map fun r => (e :: r.1, r.2)) ∧
      ∀ es, characters? (e :: es) = (characters? es).map (c :: ·) := by
  rcases escape_cases c with ⟨e, h, he, hne⟩ | ⟨h, hcontrol⟩ | ⟨h, hquote, hbackslash, hprinted⟩
  · refine ⟨.char c, fun cs => ?_, fun es => rfl⟩
    rw [h, List.cons_append, List.cons_append, List.nil_append, elements?, he]
    · cases elements? cs <;> rfl
    · exact fun _ _ _ _ _ hu _ => hne hu
  · refine ⟨.unit c.toNat, fun cs => ?_, fun es => ?_⟩
    · rw [h]
      simp only [List.cons_append, List.nil_append]
      rw [elements?, hexCode?_hexDigit c.toNat hcontrol]
      cases elements? cs <;> rfl
    · have hhigh : isHighSurrogate c.toNat = false := by simp [isHighSurrogate]; omega
      have hlow : isLowSurrogate c.toNat = false := by simp [isLowSurrogate]; omega
      rw [characters?.eq_def]
      simp [hhigh, hlow]
  · refine ⟨.char c, fun cs => ?_, fun es => rfl⟩
    rw [h, List.cons_append, List.nil_append, elements?, if_neg (by simp [hbackslash]; omega)]
    · cases elements? cs <;> rfl
    · exact hquote
    · exact fun _ _ _ _ _ hc _ => hbackslash hc
    · exact fun _ _ hc _ => hbackslash hc

theorem exists_elements (cs rest : List Char) : ∃ es,
    elements? (cs.flatMap escape ++ '"' :: rest) = some (es, rest) ∧ characters? es = some cs := by
  induction cs with
  | nil => exact ⟨[], by simp [elements?], rfl⟩
  | cons c cs ih =>
      obtain ⟨es, helements, hcharacters⟩ := ih
      obtain ⟨e, he, hes⟩ := exists_element c
      refine ⟨e :: es, ?_, ?_⟩
      · rw [List.flatMap_cons, List.append_assoc, he, helements, Option.map_some]
      · rw [hes, hcharacters, Option.map_some]

theorem toList_quoted (s : String) :
    (quoted s).toList = '"' :: (s.toList.flatMap escape ++ ['"']) := by
  simp [quoted]

/-- A text in quotes is read as this text. -/
theorem stringBody?_escape (s : String) (rest : List Char) :
    stringBody? (s.toList.flatMap escape ++ ['"'] ++ rest) = some (some s, rest) := by
  obtain ⟨es, helements, hcharacters⟩ := exists_elements s.toList rest
  rw [List.append_assoc, List.singleton_append, stringBody?, helements]
  simp [hcharacters]

/-! ## Lists -/

/-- A reader of entries with commas between them up to a closing character. -/
structure ReadsEntries {α : Type} (closing : Char) (read? : List Char → Option (α × List Char))
    (entries? : Nat → List Char → Option (List α × List Char)) : Prop where
  last {n : Nat} {cs tail : List Char} {x : α} (rest : List Char) :
    read? cs = some (x, rest) → skipSpaces rest = closing :: tail →
      entries? (n + 1) cs = some ([x], tail)
  next {n : Nat} {cs tail behind : List Char} {x : α} {xs : List α} (rest : List Char) :
    read? cs = some (x, rest) → skipSpaces rest = ',' :: tail →
      entries? n tail = some (xs, behind) → entries? (n + 1) cs = some (x :: xs, behind)

theorem items?_readsEntries (value? : List Char → Option (Json × List Char)) :
    ReadsEntries ']' value? (items? value?) where
  last rest hentry hrest := by simp [items?, hentry, hrest]
  next rest hentry hrest htail := by simp [items?, hentry, hrest, htail]

theorem members?_readsEntries (value? : List Char → Option (Json × List Char)) :
    ReadsEntries '\x7d' (member? value?) (members? value?) where
  last rest hentry hrest := by simp [members?, hentry, hrest]
  next rest hentry hrest htail := by simp [members?, hentry, hrest, htail]

section Entries

variable {α β : Type} {text : α → List Char} {value : α → β} {xs : List α}
  {before after behind : List Char}

/-- Entries that are read in front of anything are read as a list. -/
theorem ReadsEntries.read_listed {closing : Char} {read? : List Char → Option (β × List Char)}
    {entries? : Nat → List Char → Option (List β × List Char)}
    (hentries : ReadsEntries closing read? entries?) (hclosing : isSpace closing = false)
    (h : ∀ x ∈ xs, ∀ ws rest, Blank ws → read? (ws ++ text x ++ rest) = some (value x, rest))
    (hne : xs ≠ []) {n : Nat} (hn : xs.length ≤ n) (hbefore : Blank before) (hafter : Blank after)
    (hbehind : Blank behind) (rest : List Char) :
    entries? n (before ++ listed after behind (xs.map text) ++ closing :: rest) =
      some (xs.map value, rest) := by
  induction xs generalizing before n with
  | nil => exact absurd rfl hne
  | cons x xs ih =>
      obtain ⟨n, rfl⟩ : ∃ m, n = m + 1 := ⟨n - 1, by simp at hn; omega⟩
      obtain ⟨hx, hxs⟩ := List.forall_mem_cons.mp h
      cases xs with
      | nil =>
          refine hentries.last (behind ++ closing :: rest) ?_ ?_
          · simpa [listed] using hx before (behind ++ closing :: rest) hbefore
          · rw [hbehind.skipSpaces_append, skipSpaces_cons hclosing]
      | cons y xs =>
          have hread := ih hxs (List.cons_ne_nil y xs) (Nat.le_of_succ_le_succ hn) hafter
          refine hentries.next (',' :: (after ++ listed after behind ((y :: xs).map text)
            ++ closing :: rest)) ?_ (skipSpaces_cons rfl _) hread
          simpa [listed] using hx before _ hbefore

/-- A list is no shorter than the number of its entries and than every entry. -/
theorem length_le_listed (hne : ∀ x ∈ xs, text x ≠ []) :
    xs.length ≤ (listed after behind (xs.map text)).length ∧
      ∀ x ∈ xs, (text x).length ≤ (listed after behind (xs.map text)).length := by
  induction xs with
  | nil => simp
  | cons x xs ih =>
      obtain ⟨hx, hxs⟩ := List.forall_mem_cons.mp hne
      have hlength := List.length_pos_iff.mpr hx
      obtain ⟨hcount, hle⟩ := ih hxs
      have hlisted : (text x).length + (listed after behind (xs.map text)).length ≤
          (listed after behind ((x :: xs).map text)).length := by
        cases xs with
        | nil => simp [listed]
        | cons y rest =>
            simp only [List.map_cons, listed, List.length_append, List.length_cons]
            omega
      refine ⟨?_, List.forall_mem_cons.mpr ⟨by omega, fun y hy => ?_⟩⟩
      · rw [List.length_cons]
        omega
      · have := hle y hy
        omega

/-- If no entry is longer than the bound, then the bound is large enough. -/
theorem ReadsEntries.read_within {closing : Char} {read? : List Char → Option (β × List Char)}
    {entries? : Nat → List Char → Option (List β × List Char)}
    (hentries : ReadsEntries closing read? entries?) (text : α → List Char) (value : α → β)
    (hclosing : isSpace closing = false)
    (htext : ∀ x ∈ xs, text x ≠ []) {n : Nat}
    (hn : (listed after behind (xs.map text)).length ≤ n)
    (h : ∀ x ∈ xs, (text x).length ≤ n → ∀ ws rest, Blank ws →
      read? (ws ++ text x ++ rest) = some (value x, rest))
    (hne : xs ≠ []) (hbefore : Blank before) (hafter : Blank after) (hbehind : Blank behind)
    (rest : List Char) :
    entries? n (before ++ listed after behind (xs.map text) ++ closing :: rest) =
      some (xs.map value, rest) := by
  obtain ⟨hcount, hlength⟩ : xs.length ≤ (listed after behind (xs.map text)).length ∧ _ :=
    length_le_listed htext
  exact hentries.read_listed hclosing (fun x hx => h x hx (Nat.le_trans (hlength x hx) hn)) hne
    (Nat.le_trans hcount hn) hbefore hafter hbehind rest

/-- Behind the blanks in front of a list stands its first entry, or the closing character if it
has none. -/
theorem skipSpaces_listed_nil {closing : Char} (hclosing : isSpace closing = false)
    (hbefore : Blank before) (hbehind : Blank behind) (rest : List Char) :
    skipSpaces (before ++ listed after behind [] ++ closing :: rest) = closing :: rest := by
  rw [List.append_assoc, hbefore.skipSpaces_append, listed, hbehind.skipSpaces_append,
    skipSpaces_cons hclosing]

theorem skipSpaces_listed_cons (text : α → List Char) (xs : List α) {x : α} {c : Char}
    {tail : List Char} (htext : text x = c :: tail) (hc : isSpace c = false)
    (hbefore : Blank before) (rest : List Char) :
    ∃ cs, skipSpaces (before ++ listed after behind ((x :: xs).map text) ++ rest) = c :: cs := by
  rw [List.append_assoc, hbefore.skipSpaces_append, List.map_cons, htext]
  cases xs with
  | nil => exact ⟨_, skipSpaces_cons hc _⟩
  | cons y xs => exact ⟨_, skipSpaces_cons hc _⟩

end Entries

/-! ## Values -/

/-- A text that is read as a value, with blanks in front of it and anything behind it. -/
def ReadAs (cs : List Char) (j : Json) : Prop :=
  ∀ n ws rest, Blank ws → cs.length ≤ n → valueWithin? n (ws ++ cs ++ rest) = some (j, rest)

/-- The first character of a text of a value is no blank and ends no list. -/
theorem Writes.head {cs : List Char} {j : Json} (h : Writes cs j) :
    ∃ c tail, cs = c :: tail ∧ isSpace c = false ∧ c ≠ ']' := by
  cases h with
  | null => exact ⟨'n', _, rfl, rfl, by decide⟩
  | boolean value => cases value <;> exact ⟨_, _, rfl, rfl, by decide⟩
  | string s => exact ⟨'"', _, toList_quoted s, rfl, by decide⟩
  | array => exact ⟨'[', _, rfl, rfl, by decide⟩
  | object => exact ⟨'\x7b', _, rfl, rfl, by decide⟩

theorem Writes.ne_nil {cs : List Char} {j : Json} (h : Writes cs j) : cs ≠ [] := by
  obtain ⟨c, tail, rfl, -⟩ := h.head
  exact List.cons_ne_nil c tail

theorem arrayBody?_of_head {n : Nat} {value? : List Char → Option (Json × List Char)}
    {cs tail : List Char} {c : Char} (h : skipSpaces cs = c :: tail) (hc : c ≠ ']') :
    arrayBody? n value? cs = (items? value? n cs).map fun r => (.array r.1, r.2) := by
  rw [arrayBody?, h]
  split
  · next heq => exact absurd (List.cons.inj heq).1 hc
  · rfl

theorem objectBody?_of_head {n : Nat} {value? : List Char → Option (Json × List Char)}
    {cs tail : List Char} {c : Char} (h : skipSpaces cs = c :: tail) (hc : c ≠ '\x7d') :
    objectBody? n value? cs = (members? value? n cs).map fun r => (ofMembers r.1, r.2) := by
  rw [objectBody?, h]
  split
  · next heq => exact absurd (List.cons.inj heq).1 hc
  · rfl

theorem ofMembers_map (members : List (String × Json)) :
    ofMembers (members.map fun m => (some m.1, m.2)) = .object members := by
  have hkeys : (members.map fun m => (some m.1, m.2)).mapM
      (fun m : Option String × Json => m.1.map fun key => (key, m.2)) = some members := by
    induction members with
    | nil => rfl
    | cons m rest ih => simp [ih]
  rw [ofMembers, hkeys]

theorem ReadAs.of_cons {c : Char} {cs : List Char} {j : Json}
    (h : ∀ n rest, cs.length ≤ n → valueWithin? (n + 1) (c :: (cs ++ rest)) = some (j, rest)) :
    ReadAs (c :: cs) j := by
  intro n ws rest hws hn
  obtain ⟨n, rfl⟩ : ∃ m, n = m + 1 := ⟨n - 1, by simp at hn; omega⟩
  rw [List.append_assoc, hws.valueWithin?_append]
  exact h n rest (Nat.le_of_succ_le_succ hn)

theorem readAs_quoted (s : String) : ReadAs (quoted s).toList (.string s) := by
  rw [toList_quoted]
  refine .of_cons fun n rest _ => ?_
  have hvalue (cs : List Char) : valueWithin? (n + 1) ('"' :: cs) =
      (stringBody? cs).map fun r => ((r.1.map Json.string).getD .textless, r.2) := rfl
  rw [hvalue, stringBody?_escape]
  rfl

section Lists

variable {before after behind gap : List Char}

theorem readAs_array {items : List (List Char × Json)} (hbefore : Blank before)
    (hafter : Blank after) (hbehind : Blank behind) (hitems : ∀ i ∈ items, Writes i.1 i.2)
    (h : ∀ i ∈ items, ReadAs i.1 i.2) :
    ReadAs ('[' :: (before ++ listed after behind (items.map Prod.fst) ++ [']']))
      (.array (items.map Prod.snd)) := by
  refine .of_cons fun n rest hn => ?_
  have hvalue (cs : List Char) : valueWithin? (n + 1) ('[' :: cs) =
      arrayBody? n (valueWithin? n) cs := rfl
  simp only [List.length_append] at hn
  rw [hvalue, List.append_assoc, List.singleton_append]
  cases items with
  | nil =>
      rw [arrayBody?, List.map_nil, skipSpaces_listed_nil rfl hbefore hbehind]
      rfl
  | cons i items =>
      obtain ⟨c, tail, htext, hspace, hc⟩ := (hitems i (List.mem_cons_self ..)).head
      obtain ⟨cs, hcs⟩ := skipSpaces_listed_cons Prod.fst items htext hspace hbefore (']' :: rest)
      have hread := (items?_readsEntries (valueWithin? n)).read_within Prod.fst Prod.snd rfl
        (fun i hi => (hitems i hi).ne_nil) (by omega)
        (fun i hi hlength ws rest hws => h i hi n ws rest hws hlength)
        (List.cons_ne_nil i items) hbefore hafter hbehind rest
      rw [arrayBody?_of_head hcs hc, hread, Option.map_some]

theorem member?_memberText {m : String × List Char × Json} (h : ReadAs m.2.1 m.2.2)
    (hgap : Blank gap) {n : Nat} (hn : (memberText gap m).length ≤ n) {ws : List Char}
    (hws : Blank ws) (rest : List Char) :
    member? (valueWithin? n) (ws ++ memberText gap m ++ rest) =
      some ((some m.1, m.2.2), rest) := by
  have hlength : m.2.1.length ≤ n := by
    simp only [memberText, List.length_append] at hn
    omega
  have hbody : ws ++ memberText gap m ++ rest =
      ws ++ '"' :: (m.1.toList.flatMap escape ++ ['"'] ++ ':' :: (gap ++ m.2.1 ++ rest)) := by
    simp [memberText, toList_quoted]
  rw [member?, hbody, hws.skipSpaces_append, skipSpaces_cons rfl]
  simp only
  rw [stringBody?_escape]
  simp only [Option.bind_eq_bind, Option.bind_some]
  rw [skipSpaces_cons rfl]
  simp only
  rw [h n gap rest hgap hlength, Option.bind_some]

theorem readAs_object {members : List (String × List Char × Json)} (hbefore : Blank before)
    (hafter : Blank after) (hbehind : Blank behind) (hgap : Blank gap)
    (h : ∀ m ∈ members, ReadAs m.2.1 m.2.2) :
    ReadAs ('\x7b' :: (before ++ listed after behind (members.map (memberText gap)) ++ ['\x7d']))
      (.object (members.map fun m => (m.1, m.2.2))) := by
  refine .of_cons fun n rest hn => ?_
  have hvalue (cs : List Char) : valueWithin? (n + 1) ('\x7b' :: cs) =
      objectBody? n (valueWithin? n) cs := rfl
  simp only [List.length_append] at hn
  rw [hvalue, List.append_assoc, List.singleton_append]
  cases members with
  | nil =>
      rw [objectBody?, List.map_nil, skipSpaces_listed_nil rfl hbefore hbehind]
      rfl
  | cons m members =>
      obtain ⟨tail, htext⟩ : ∃ tail, memberText gap m = '"' :: tail :=
        ⟨_, by rw [memberText, toList_quoted, List.cons_append, List.cons_append]⟩
      obtain ⟨cs, hcs⟩ :=
        skipSpaces_listed_cons (memberText gap) members htext rfl hbefore ('\x7d' :: rest)
      have hread := (members?_readsEntries (valueWithin? n)).read_within (memberText gap)
        (fun m => (some m.1, m.2.2)) rfl (fun m _ => by simp [memberText]) (by omega)
        (fun m hm hlength ws rest hws => member?_memberText (h m hm) hgap hlength hws rest)
        (List.cons_ne_nil m members) hbefore hafter hbehind rest
      have hkeyed := ofMembers_map ((m :: members).map fun m => (m.1, m.2.2))
      rw [List.map_map] at hkeyed
      rw [objectBody?_of_head hcs (by decide), hread, Option.map_some]
      exact congrArg (fun j => some (j, rest)) hkeyed

end Lists

/-- Every text of a value is read as this value. -/
theorem Writes.readAs {cs : List Char} {j : Json} (h : Writes cs j) : ReadAs cs j := by
  induction h with
  | null => exact .of_cons fun n rest _ => rfl
  | boolean value => cases value <;> exact .of_cons fun n rest _ => rfl
  | string s => exact readAs_quoted s
  | array hbefore hafter hbehind h ih => exact readAs_array hbefore hafter hbehind h ih
  | object hbefore hafter hbehind hgap _ ih => exact readAs_object hbefore hafter hbehind hgap ih

theorem parse?_of_writes {text : String} {j : Json} (h : Writes text.toList j) :
    parse? text = some j := by
  have hread := h.readAs text.toList.length [] [] (fun _ hc => nomatch hc) (Nat.le_refl _)
  rw [List.nil_append, List.append_nil] at hread
  rw [parse?, hread]
  rfl

end Json

end SwitchHoist
