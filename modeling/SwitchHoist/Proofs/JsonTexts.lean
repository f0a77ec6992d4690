import SwitchHoist.Json.Reader
import SwitchHoist.Json.Writer

/-!
# The texts of JSON values

A value has many texts, which differ in the blanks inside arrays and objects.  The compact text
and the pretty text are two of them.  In all of them the arrays and objects that are open at once
are as many as the value is deep, whatever brackets its strings have.
-/

namespace SwitchHoist

namespace Json

/-! ## Values and their texts -/

/-- A value made of texts, truth values, arrays and objects. -/
inductive IsPlain : Json → Prop where
  | null : IsPlain .null
  | boolean (value : Bool) : IsPlain (.boolean value)
  | string (s : String) : IsPlain (.string s)
  | array {items : List Json} : (∀ j ∈ items, IsPlain j) → IsPlain (.array items)
  | object {members : List (String × Json)} : (∀ m ∈ members, IsPlain m.2) →
      IsPlain (.object members)

/-- Characters that may stand around values. -/
def Blank (cs : List Char) : Prop :=
  ∀ c ∈ cs, isSpace c = true

/-- Texts with commas between neighbours, with some characters behind each comma and some
behind the last text. -/
def listed (after behind : List Char) : List (List Char) → List Char
  | [] => behind
  | [text] => text ++ behind
  | text :: rest => text ++ ',' :: after ++ listed after behind rest

/-- The text of a member: its key, a colon, some characters and the text of its value. -/
def memberText (gap : List Char) (m : String × List Char × Json) : List Char :=
  (quoted m.1).toList ++ ':' :: gap ++ m.2.1

/-- A text of a value.  Blanks may stand in front of the first item of a list, behind a comma,
behind the last item and behind the colon of a member. -/
inductive Writes : List Char → Json → Prop where
  | null : Writes "null".toList .null
  | boolean (value : Bool) : Writes (if value then "true" else "false").toList (.boolean value)
  | string (s : String) : Writes (quoted s).toList (.string s)
  | array {before after behind : List Char} {items : List (List Char × Json)} :
      Blank before → Blank after → Blank behind → (∀ i ∈ items, Writes i.1 i.2) →
      Writes ('[' :: before ++ listed after behind (items.map Prod.fst) ++ [']'])
        (.array (items.map Prod.snd))
  | object {before after behind gap : List Char} {members : List (String × List Char × Json)} :
      Blank before → Blank after → Blank behind → Blank gap →
      (∀ m ∈ members, Writes m.2.1 m.2.2) →
      Writes ('\x7b' :: before ++ listed after behind (members.map (memberText gap)) ++ ['\x7d'])
        (.object (members.map fun m => (m.1, m.2.2)))

theorem compactList_eq_map (js : List Json) : compactList js = js.map compact := by
  induction js with
  | nil => rfl
  | cons j rest ih => rw [compactList, ih, List.map_cons]

theorem compactMembers_eq_map (ms : List (String × Json)) :
    compactMembers ms = ms.map fun m => quoted m.1 ++ ":" ++ m.2.compact := by
  induction ms with
  | nil => rfl
  | cons m rest ih => rw [compactMembers, ih, List.map_cons]

theorem prettyList_eq_map (level : Nat) (js : List Json) :
    prettyList level js = js.map (prettyAt level) := by
  induction js with
  | nil => rfl
  | cons j rest ih => rw [prettyList, ih, List.map_cons]

theorem prettyMembers_eq_map (level : Nat) (ms : List (String × Json)) :
    prettyMembers level ms = ms.map fun m => quoted m.1 ++ ": " ++ prettyAt level m.2 := by
  induction ms with
  | nil => rfl
  | cons m rest ih => rw [prettyMembers, ih, List.map_cons]

theorem toList_joined (separator : String) {after : List Char}
    (h : separator.toList = ',' :: after) (behind : List Char) (texts : List String) :
    (joined separator texts).toList ++ behind = listed after behind (texts.map String.toList) := by
  induction texts with
  | nil => rfl
  | cons s rest ih =>
      cases rest with
      | nil => rfl
      | cons t rest =>
          simp only [List.map_cons, listed] at ih ⊢
          simp only [joined, String.toList_append, List.append_assoc, ih, h, List.cons_append]

theorem blank_margin (level : Nat) : Blank (margin level).toList := by
  induction level with
  | zero => exact fun _ hc => nomatch hc
  | succ level ih =>
      rw [margin, String.toList_append]
      exact List.forall_mem_append.mpr ⟨by simp [isSpace], ih⟩

theorem Blank.newline {cs : List Char} (h : Blank cs) : Blank ('\n' :: cs) :=
  List.forall_mem_cons.mpr ⟨rfl, h⟩

theorem toList_stacked (level : Nat) (opening closing : String) (texts : List String) :
    ∃ before behind, Blank before ∧ Blank behind ∧
      (stacked level opening closing texts).toList = opening.toList ++ before
        ++ listed ('\n' :: (margin (level + 1)).toList) behind (texts.map String.toList)
        ++ closing.toList := by
  cases texts with
  | nil => exact ⟨[], [], by simp [Blank], by simp [Blank], by simp [stacked, listed]⟩
  | cons s rest =>
      refine ⟨'\n' :: (margin (level + 1)).toList, '\n' :: (margin level).toList,
        (blank_margin _).newline, (blank_margin _).newline, ?_⟩
      rw [← toList_joined (",\n" ++ margin (level + 1)) (by simp)]
      simp [stacked]

section Layouts

variable {text : String} {before after behind gap : List Char} {write : Json → String}

/-- An array is written by writing its items. -/
theorem writes_array {items : List Json} (hbefore : Blank before) (hafter : Blank after)
    (hbehind : Blank behind) (h : ∀ j ∈ items, Writes (write j).toList j)
    (htext : text.toList = '[' :: before
      ++ listed after behind ((items.map write).map String.toList) ++ [']']) :
    Writes text.toList (.array items) := by
  have hitems : ∀ i ∈ items.map fun j => ((write j).toList, j), Writes i.1 i.2 :=
    List.forall_mem_map.mpr h
  rw [htext]
  simpa [Function.comp_def] using Writes.array hbefore hafter hbehind hitems

/-- An object is written by writing the values of its members. -/
theorem writes_object (colon : String) {members : List (String × Json)}
    (hbefore : Blank before) (hafter : Blank after) (hbehind : Blank behind) (hgap : Blank gap)
    (hcolon : colon.toList = ':' :: gap) (h : ∀ m ∈ members, Writes (write m.2).toList m.2)
    (htext : text.toList = '\x7b' :: before
      ++ listed after behind
        ((members.map fun m => quoted m.1 ++ colon ++ write m.2).map String.toList) ++ ['\x7d']) :
    Writes text.toList (.object members) := by
  have hmembers : ∀ m ∈ members.map fun m => (m.1, (write m.2).toList, m.2),
      Writes m.2.1 m.2.2 :=
    List.forall_mem_map.mpr h
  rw [htext]
  simpa [Function.comp_def, memberText, hcolon] using
    Writes.object hbefore hafter hbehind hgap hmembers

end Layouts

/-- The compact and the pretty text of a value are texts of it. -/
theorem IsPlain.writes {j : Json} (h : j.IsPlain) :
    Writes j.compact.toList j ∧ ∀ level, Writes (prettyAt level j).toList j := by
  have hnil : Blank [] := fun _ hc => nomatch hc
  induction h with
  | null => exact ⟨.null, fun _ => .null⟩
  | boolean value =>
      cases value
      · exact ⟨.boolean false, fun _ => .boolean false⟩
      · exact ⟨.boolean true, fun _ => .boolean true⟩
  | string s => exact ⟨.string s, fun _ => .string s⟩
  | @array items _ ih =>
      refine ⟨writes_array hnil hnil hnil (fun j hj => (ih j hj).1) ?_, fun level => ?_⟩
      · rw [compact, compactList_eq_map, ← toList_joined "," rfl]
        simp
      · obtain ⟨before, behind, hbefore, hbehind, htext⟩ :=
          toList_stacked level "[" "]" (items.map (prettyAt (level + 1)))
        refine writes_array hbefore (blank_margin (level + 1)).newline hbehind
          (fun j hj => (ih j hj).2 (level + 1)) ?_
        rw [prettyAt, prettyList_eq_map, htext]
        rfl
  | @object members _ ih =>
      refine ⟨writes_object ":" hnil hnil hnil hnil rfl (fun m hm => (ih m hm).1) ?_,
        fun level => ?_⟩
      · rw [compact, compactMembers_eq_map, ← toList_joined "," rfl]
        simp
      · obtain ⟨before, behind, hbefore, hbehind, htext⟩ := toList_stacked level "\x7b" "\x7d"
          (members.map fun m => quoted m.1 ++ ": " ++ prettyAt (level + 1) m.2)
        have hgap : Blank [' '] := List.forall_mem_singleton.mpr rfl
        refine writes_object ": " hbefore (blank_margin (level + 1)).newline hbehind hgap rfl
          (fun m hm => (ih m hm).2 (level + 1)) ?_
        rw [prettyAt, prettyMembers_eq_map, htext]
        rfl

/-! ## Arrays and objects that are open at once -/

/-- Whether a place in a text is outside of strings, in a string, or in a string behind a
backslash. -/
inductive Place where
  | outside
  | inside
  | escaped
  deriving DecidableEq, Repr

/-- The place behind a character. -/
def Place.next : Place → Char → Place
  | outside, c => if c = '"' then inside else outside
  | inside, c => if c = '"' then outside else if c = '\\' then escaped else inside
  | escaped, _ => inside

/-- How many arrays and objects are open behind a character, if `count` of them are open in
front of it. -/
def Place.opened (p : Place) (count : Nat) (c : Char) : Nat :=
  if p ≠ outside then count
  else if c = '[' ∨ c = '\x7b' then count + 1
  else if c = ']' ∨ c = '\x7d' then count - 1
  else count

/-- The greatest number of arrays and objects that are open at once in the rest of a text. -/
def mostOpenFrom (p : Place) (count : Nat) : List Char → Nat
  | [] => count
  | c :: rest => max count (mostOpenFrom (p.next c) (p.opened count c) rest)

/-- The greatest number of arrays and objects that are open at once in a text. -/
def mostOpen (text : String) : Nat :=
  mostOpenFrom .outside 0 text.toList

theorem le_mostOpenFrom (p : Place) (count : Nat) (cs : List Char) :
    count ≤ mostOpenFrom p count cs := by
  cases cs with
  | nil => exact Nat.le_refl count
  | cons c rest => exact Nat.le_max_left ..

/-- A character that opens and closes nothing. -/
theorem mostOpenFrom_cons {p : Place} {count : Nat} {c : Char} (h : p.opened count c = count)
    (rest : List Char) :
    mostOpenFrom p count (c :: rest) = mostOpenFrom (p.next c) count rest := by
  rw [mostOpenFrom, h]
  exact Nat.max_eq_right (le_mostOpenFrom ..)

theorem hexDigit_ne : ∀ n < 16, hexDigit n ≠ '"' ∧ hexDigit n ≠ '\\' := by
  decide

/-- A character in a string is written as a backslash and a character for it, as a backslash and
four hexadecimal digits, or as it is. -/
theorem escape_cases (c : Char) :
    (∃ e, escape c = ['\\', e] ∧ escaped? e = some c ∧ e ≠ 'u') ∨
      (escape c = ['\\', 'u', '0', '0', hexDigit (c.toNat / 16), hexDigit (c.toNat % 16)] ∧
        c.toNat < 32) ∨
      (escape c = [c] ∧ c ≠ '"' ∧ c ≠ '\\' ∧ 32 ≤ c.toNat) := by
  by_cases hshort : c ∈ ['"', '\\', '\x08', '\x0c', '\n', '\r', '\t']
  · left
    simp only [List.mem_cons, List.not_mem_nil, or_false] at hshort
    rcases hshort with rfl | rfl | rfl | rfl | rfl | rfl | rfl <;>
      exact ⟨_, rfl, rfl, by decide⟩
  · right
    simp only [List.mem_cons, List.not_mem_nil, or_false, not_or] at hshort
    obtain ⟨hquote, hbackslash, h₁, h₂, h₃, h₄, h₅⟩ := hshort
    rw [escape, if_neg hquote, if_neg hbackslash, if_neg h₁, if_neg h₂, if_neg h₃, if_neg h₄,
      if_neg h₅]
    by_cases hcontrol : c.toNat < 32
    · exact .inl ⟨if_pos hcontrol, hcontrol⟩
    · exact .inr ⟨if_neg hcontrol, hquote, hbackslash, Nat.not_lt.mp hcontrol⟩

section Strings

variable (count : Nat) (c : Char) (rest : List Char)

theorem mostOpenFrom_inside :
    mostOpenFrom .inside count (c :: rest) = mostOpenFrom (Place.inside.next c) count rest :=
  mostOpenFrom_cons rfl rest

theorem mostOpenFrom_escaped :
    mostOpenFrom .escaped count (c :: rest) = mostOpenFrom .inside count rest :=
  mostOpenFrom_cons rfl rest

/-- A character in a string that ends nothing and escapes nothing. -/
theorem mostOpenFrom_inside_of_ne {c : Char} (hquote : c ≠ '"') (hbackslash : c ≠ '\\') :
    mostOpenFrom .inside count (c :: rest) = mostOpenFrom .inside count rest := by
  rw [mostOpenFrom_inside, Place.next, if_neg hquote, if_neg hbackslash]

theorem mostOpenFrom_escape :
    mostOpenFrom .inside count (escape c ++ rest) = mostOpenFrom .inside count rest := by
  have hbackslash (e : Char) (cs : List Char) :
      mostOpenFrom .inside count ('\\' :: e :: cs) = mostOpenFrom .inside count cs :=
    (mostOpenFrom_inside count '\\' (e :: cs)).trans (mostOpenFrom_escaped count e cs)
  rcases escape_cases c with ⟨e, h, -, -⟩ | ⟨h, hcontrol⟩ | ⟨h, hquote, hback, -⟩
  · rw [h]
    exact hbackslash e rest
  · obtain ⟨hhigh, hhigh'⟩ := hexDigit_ne (c.toNat / 16) (by omega)
    obtain ⟨hlow, hlow'⟩ := hexDigit_ne (c.toNat % 16) (by omega)
    have hzero (cs : List Char) :
        mostOpenFrom .inside count ('0' :: cs) = mostOpenFrom .inside count cs :=
      mostOpenFrom_inside_of_ne count cs (by decide) (by decide)
    rw [h]
    simp only [List.cons_append, List.nil_append]
    rw [hbackslash, hzero, hzero, mostOpenFrom_inside_of_ne count _ hhigh hhigh',
      mostOpenFrom_inside_of_ne count _ hlow hlow']
  · rw [h]
    exact mostOpenFrom_inside_of_ne count rest hquote hback

/-- The brackets in a string open and close nothing. -/
theorem mostOpenFrom_quoted (s : String) :
    mostOpenFrom .outside count ((quoted s).toList ++ rest) = mostOpenFrom .outside count rest := by
  have hinside : ∀ cs : List Char, mostOpenFrom .inside count (cs.flatMap escape ++ '"' :: rest) =
      mostOpenFrom .outside count rest := by
    intro cs
    induction cs with
    | nil => exact mostOpenFrom_inside count '"' rest
    | cons c cs ih => rw [List.flatMap_cons, List.append_assoc, mostOpenFrom_escape, ih]
  have hopening : mostOpenFrom .outside count ('"' :: (s.toList.flatMap escape ++ '"' :: rest)) =
      mostOpenFrom .inside count (s.toList.flatMap escape ++ '"' :: rest) :=
    mostOpenFrom_cons rfl _
  simpa [quoted] using hopening.trans (hinside s.toList)

end Strings

/-- A text that has so many arrays and objects open at once, wherever it stands outside of
strings, and closes them again. -/
def Opens (cs : List Char) (depth : Nat) : Prop :=
  ∀ count rest, mostOpenFrom .outside count (cs ++ rest) =
    max (count + depth) (mostOpenFrom .outside count rest)

theorem Opens.of_eq {cs : List Char}
    (h : ∀ count rest, mostOpenFrom .outside count (cs ++ rest) =
      mostOpenFrom .outside count rest) : Opens cs 0 := by
  intro count rest
  rw [h]
  exact (Nat.max_eq_right (le_mostOpenFrom ..)).symm

theorem Opens.append {cs ds : List Char} {d e : Nat} (hcs : Opens cs d) (hds : Opens ds e) :
    Opens (cs ++ ds) (max d e) := by
  intro count rest
  rw [List.append_assoc, hcs, hds, ← Nat.max_assoc, Nat.add_max_add_left]

/-- The characters that start a string, and those that open and close arrays and objects. -/
def structural : List Char :=
  ['"', '[', ']', '\x7b', '\x7d']

theorem Opens.of_not_structural {cs : List Char} (h : ∀ c ∈ cs, c ∉ structural) : Opens cs 0 := by
  refine .of_eq fun count rest => ?_
  induction cs with
  | nil => rfl
  | cons c cs ih =>
      obtain ⟨hc, hcs⟩ := List.forall_mem_cons.mp h
      simp only [structural, List.mem_cons, List.not_mem_nil, or_false, not_or] at hc
      rw [List.cons_append, mostOpenFrom_cons (by simp [Place.opened, hc]), ← ih hcs,
        Place.next, if_neg hc.1]

theorem Blank.not_structural {ws : List Char} (h : Blank ws) : ∀ c ∈ ws, c ∉ structural := by
  intro c hc
  have hspace : ((c = ' ' ∨ c = '\t') ∨ c = '\n') ∨ c = '\r' := by simpa [isSpace] using h c hc
  rcases hspace with ((rfl | rfl) | rfl) | rfl <;> decide

theorem Blank.opens {ws : List Char} (h : Blank ws) : Opens ws 0 :=
  .of_not_structural h.not_structural

/-- A separator and blanks. -/
theorem Blank.opens_cons {ws : List Char} (h : Blank ws) (c : Char) (hc : c ∉ structural) :
    Opens (c :: ws) 0 :=
  .of_not_structural (List.forall_mem_cons.mpr ⟨hc, h.not_structural⟩)

/-- A list has as many arrays and objects open as the item that has the most. -/
theorem Opens.listed {α : Type} {text : α → List Char} {depth : α → Nat} {xs : List α}
    (h : ∀ x ∈ xs, Opens (text x) (depth x)) {after behind : List Char} (hafter : Blank after)
    (hbehind : Blank behind) :
    Opens (listed after behind (xs.map text)) ((xs.map depth).foldr max 0) := by
  induction xs with
  | nil => exact hbehind.opens
  | cons x rest ih =>
      obtain ⟨hx, hrest⟩ := List.forall_mem_cons.mp h
      cases rest with
      | nil => exact hx.append hbehind.opens
      | cons y rest =>
          have hcomma := hx.append (hafter.opens_cons ',' (by decide))
          rw [Nat.max_zero] at hcomma
          exact hcomma.append (ih hrest)

theorem Opens.enclosed {cs : List Char} {d : Nat} (h : Opens cs d) {opening closing : Char}
    (hbrackets : opening = '[' ∧ closing = ']' ∨ opening = '\x7b' ∧ closing = '\x7d') :
    Opens (opening :: cs ++ [closing]) (1 + d) := by
  intro count rest
  have hopening : mostOpenFrom .outside count (opening :: (cs ++ closing :: rest)) =
      max count (mostOpenFrom .outside (count + 1) (cs ++ closing :: rest)) := by
    rcases hbrackets with ⟨rfl, -⟩ | ⟨rfl, -⟩ <;> rfl
  have hclosing : mostOpenFrom .outside (count + 1) (closing :: rest) =
      max (count + 1) (mostOpenFrom .outside count rest) := by
    rcases hbrackets with ⟨-, rfl⟩ | ⟨-, rfl⟩ <;> rfl
  rw [List.append_assoc, List.cons_append, List.singleton_append, hopening, h, hclosing]
  omega

theorem Opens.memberText {m : String × List Char × Json} {d : Nat} (h : Opens m.2.1 d)
    {gap : List Char} (hgap : Blank gap) : Opens (memberText gap m) d := by
  have hkey : Opens (quoted m.1).toList 0 :=
    .of_eq fun count rest => mostOpenFrom_quoted count rest m.1
  have hmember := (hkey.append (hgap.opens_cons ':' (by decide))).append h
  rwa [Nat.max_self, Nat.zero_max] at hmember

theorem depthList_eq_foldr (js : List Json) : depthList js = (js.map depth).foldr max 0 := by
  induction js with
  | nil => rfl
  | cons j rest ih => rw [depthList, ih, List.map_cons, List.foldr_cons]

theorem depthMembers_eq_foldr (ms : List (String × Json)) :
    depthMembers ms = (ms.map fun m => m.2.depth).foldr max 0 := by
  induction ms with
  | nil => rfl
  | cons m rest ih => rw [depthMembers, ih, List.map_cons, List.foldr_cons]

/-- A text of a value has as many arrays and objects open as the value is deep. -/
theorem Writes.opens {cs : List Char} {j : Json} (h : Writes cs j) : Opens cs j.depth := by
  induction h with
  | null => exact .of_not_structural (by simp [structural])
  | boolean value => exact .of_not_structural (by cases value <;> simp [structural])
  | string s => exact .of_eq fun count rest => mostOpenFrom_quoted count rest s
  | array hbefore hafter hbehind _ ih =>
      have hlist := hbefore.opens.append (Opens.listed ih hafter hbehind)
      rw [Nat.zero_max] at hlist
      rw [depth, depthList_eq_foldr, List.map_map]
      exact hlist.enclosed (.inl ⟨rfl, rfl⟩)
  | @object _ _ _ gap members hbefore hafter hbehind hgap _ ih =>
      have hmembers : ∀ m ∈ members, Opens (memberText gap m) m.2.2.depth :=
        fun m hm => (ih m hm).memberText hgap
      have hlist := hbefore.opens.append (Opens.listed hmembers hafter hbehind)
      rw [Nat.zero_max] at hlist
      rw [depth, depthMembers_eq_foldr, List.map_map]
      exact hlist.enclosed (.inr ⟨rfl, rfl⟩)

theorem mostOpen_of_writes {text : String} {j : Json} (h : Writes text.toList j) :
    mostOpen text = j.depth := by
  have htext := h.opens 0 []
  rw [List.append_nil] at htext
  simpa [mostOpen, mostOpenFrom] using htext

end Json

end SwitchHoist
