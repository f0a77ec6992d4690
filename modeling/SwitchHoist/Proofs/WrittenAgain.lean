import SwitchHoist.Proofs.WrittenPrograms

/-!
# What is written as text is read again

A program that was read from a text and breaks no rule can be printed, and so can what any
steps make of it.  So a text file that the tool writes for it is a program again, the same one,
and is copied byte by byte when it is read and written without any step.
-/

namespace SwitchHoist

/-- A valid program that a text can spell. -/
structure Block.IsSource (b : Block) : Prop where
  valid : b.IsValid
  printable : b.Printable

/-- Exactly the valid programs that are read from some text. -/
theorem Block.isSource_iff {b : Block} :
    b.IsSource ↔ b.IsValid ∧ ∃ code, Block.parse code = .ok b := by
  constructor
  · rintro ⟨hvalid, hprintable⟩
    exact ⟨hvalid, b.text, hprintable.parse_text⟩
  · rintro ⟨hvalid, code, hcode⟩
    exact ⟨hvalid, Block.printable_of_parse hcode⟩

/-- Steps can be run on such a program, and lead to another one. -/
theorem Block.IsSource.exists_optimize {b : Block} (h : b.IsSource) (steps : List Step) :
    ∃ b', b.optimize steps = .ok b' ∧ b'.IsSource := by
  obtain ⟨b', hb', hvalid⟩ := h.valid.exists_optimize steps
  have hspelled := h.valid.printable_iff.mp h.printable
  have hkept := Block.each_of_optimize Stmt.stable_spelled hb' hspelled
  exact ⟨b', hb', hvalid, hvalid.printable_iff.mpr hkept⟩

/-- A request that reads a program from a text file and writes it to a text file. -/
structure Request.OfTexts (request : Request) : Prop where
  input : request.input.format = .text
  output : request.output.format = .text

/-- From the bytes of a text that spells a valid program a request makes the text of the program
behind its steps, as a line. -/
theorem Request.OfTexts.outcome_eq {request : Request} (h : request.OfTexts) {content : String}
    {b b' : Block} (hread : Block.parse content = .ok b) (hvalid : b.IsValid)
    (hb' : b.optimize request.steps = .ok b') :
    request.outcome (some content.toUTF8) = .ok (b'.text ++ "\n") := by
  have hbytes : String.fromUTF8? content.toUTF8 = some content := dif_pos content.isValidUTF8
  have hinput : request.input.read content = .ok b := by rw [ProgramFile.read, h.input, hread]
  simp only [Request.outcome, hbytes]
  exact hvalid.outcomeOfText_eq hinput h.output hb'

/-- What is written as text for a valid program that was read from a text is the program behind
the steps when it is read again, which is valid, and without any step it is written once more
as it stands. -/
theorem Request.outcome_read_again {request : Request} (h : request.OfTexts) {content : String}
    {b : Block} (hread : Block.parse content = .ok b) (hvalid : b.IsValid) :
    ∃ b' written, b.optimize request.steps = .ok b' ∧ written = b'.text ++ "\n" ∧
      request.outcome (some content.toUTF8) = .ok written ∧
      Block.parse written = .ok b' ∧ b'.IsValid ∧
      ∀ again : Request, again.OfTexts → again.steps = [] →
        again.outcome (some written.toUTF8) = .ok written := by
  have hsource : b.IsSource := Block.isSource_iff.mpr ⟨hvalid, content, hread⟩
  obtain ⟨b', hb', hsource'⟩ := hsource.exists_optimize request.steps
  have hback := hsource'.printable.parse_text_newline
  refine ⟨b', b'.text ++ "\n", hb', rfl, h.outcome_eq hread hvalid hb', hback, hsource'.valid, ?_⟩
  intro again hagain hsteps
  refine hagain.outcome_eq hback hsource'.valid ?_
  rw [hsteps]
  rfl

/-- A switch whose cases start alike. -/
def typedStart : Block :=
  [.switch (.variable "x")
    [⟨some ⟨.number, "0x00", none⟩, [.declare [⟨"a", some "u256"⟩] (some (.call "f" [])),
        .expr (.call "g" [.variable "a"])]⟩,
      ⟨none, [.declare [⟨"b", some "u256"⟩] (some (.call "f" []))]⟩]]

/-- A text of this switch with comments in it. -/
def typedStartCommented : String :=
  "\x7b // two cases\nswitch x case 0x00 \x7b let a:u256 := f() g(a) \x7d /* */" ++
    "default \x7b let b : u256:=f() \x7d \x7d"

/-- The switch behind what its cases start with. -/
def typedStartHoisted : Block :=
  [.declare [⟨"a", some "u256"⟩] (some (.call "f" [])),
    .switch (.variable "x")
      [⟨some ⟨.number, "0x00", none⟩, [.expr (.call "g" [.variable "a"])]⟩, ⟨none, []⟩]]

theorem typedStart_outcome_read_again :
    hoistText.OfTexts ∧ Block.parse typedStartCommented = .ok typedStart ∧ typedStart.IsValid ∧
      ∃ written, written = typedStartHoisted.text ++ "\n" ∧
        hoistText.outcome (some typedStartCommented.toUTF8) = .ok written ∧
        Block.parse written = .ok typedStartHoisted ∧ typedStartHoisted.IsValid ∧
        ∀ again : Request, again.OfTexts → again.steps = [] →
          again.outcome (some written.toUTF8) = .ok written := by
  have htexts : hoistText.OfTexts := ⟨rfl, rfl⟩
  have hread : Block.parse typedStartCommented = .ok typedStart := by decide +kernel
  have hvalid : typedStart.IsValid := by decide +kernel
  obtain ⟨b', written, hb', hwritten⟩ := Request.outcome_read_again htexts hread hvalid
  have hhoisted : typedStart.optimize [.commonSwitchPrefix] = .ok typedStartHoisted := by
    decide +kernel
  obtain rfl : b' = typedStartHoisted := Except.ok.inj (hb'.symm.trans hhoisted)
  exact ⟨htexts, hread, hvalid, written, hwritten⟩

end SwitchHoist
