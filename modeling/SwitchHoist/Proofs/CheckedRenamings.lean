import SwitchHoist.Proofs.OuterNames
import SwitchHoist.Proofs.RenamedOccurrences

/-!
# Renamings that pass the check

A renaming may be caught on the way: by a declaration inside the statements, or by one of the
reserved names right in front of them.  The check looks at the statements before they are renamed,
and it rejects just the renamings that are caught.

So a renaming that passes, and gives no two names the same new name, can be undone.  And whether
statements are equal up to declared names can be told in front of it as well as behind it.
-/

namespace SwitchHoist

namespace Renaming

/-! ## What the check says -/

/-- The check on an occurrence: it is free behind the renaming exactly if it was free before, and
if it is free and keeps its name, then this is no reserved name. -/
theorem keeps_iff {ρ : Renaming} {reserved : Names} {o : Occurrence} :
    ρ.keeps reserved o = true ↔
      (ρ.occurrence .initial o).isFree = o.isFree ∧
        (o.isFree = true → ρ.target? o.name = none → o.name ∉ reserved) := by
  cases hfree : o.isFree with
  | false =>
      rw [occurrence_of_bound hfree]
      simp only [Occurrence.isFree, Bool.not_eq_false'] at hfree
      simp [keeps, Occurrence.isFree, hfree]
  | true =>
      rw [occurrence_of_free hfree, name_initial]
      simp only [Occurrence.isFree, Bool.not_eq_true'] at hfree
      cases hx : ρ.target? o.name <;> simp [keeps, Occurrence.isFree, hfree, hx]

/-- The check is exact.  It passes if and only if each occurrence is bound behind the renaming
exactly if it was bound in front of it, and no free occurrence that keeps its name has a reserved
name. -/
theorem preserves_iff (ρ : Renaming) (reserved : Names) (b : Block) :
    ρ.preserves reserved b = true ↔
      (ρ.stmts b).occurrences.map Occurrence.isFree = b.occurrences.map Occurrence.isFree ∧
        ∀ o ∈ b.occurrences, o.isFree = true → ρ.target? o.name = none → o.name ∉ reserved := by
  have hrenamed : (ρ.stmts b).occurrences = b.occurrences.map (ρ.occurrence .initial) :=
    Block.occurrences_renameFrom ρ b .initial
  rw [preserves, List.all_eq_true, hrenamed, List.map_map, List.map_inj_left, ← forall₂_and]
  exact forall_congr' fun o => forall_congr' fun _ => keeps_iff

/-! ## The way back -/

/-- The entries that count: of those for the same name only the first does. -/
def entries (ρ : Renaming) : List (String × String) :=
  ρ.filter fun entry => ρ.target? entry.1 == some entry.2

/-- The new names. -/
def values (ρ : Renaming) : Names :=
  ρ.entries.map Prod.snd

/-- The renaming that gives the old names back. -/
def inverse (ρ : Renaming) : Renaming :=
  ρ.entries.map Prod.swap

/-- No two names have the same new name. -/
def Injective (ρ : Renaming) : Prop :=
  ∀ x x' y, ρ.target? x = some y → ρ.target? x' = some y → x = x'

theorem mem_of_target? {ρ : Renaming} {x y : String} (h : ρ.target? x = some y) : (x, y) ∈ ρ := by
  obtain ⟨front, rest, rfl, -⟩ := List.lookup_eq_some_iff.mp h
  simp

theorem mem_entries {ρ : Renaming} {x y : String} :
    (x, y) ∈ ρ.entries ↔ ρ.target? x = some y := by
  simp only [entries, List.mem_filter, beq_iff_eq, and_iff_right_iff_imp]
  exact mem_of_target?

theorem mem_values {ρ : Renaming} {y : String} : y ∈ ρ.values ↔ ∃ x, ρ.target? x = some y := by
  simp [values, mem_entries]

theorem mem_inverse {ρ : Renaming} {x y : String} :
    (y, x) ∈ ρ.inverse ↔ ρ.target? x = some y := by
  simp [inverse, mem_entries]

instance (ρ : Renaming) : Decidable ρ.Injective :=
  decidable_of_iff (∀ p ∈ ρ.entries, ∀ q ∈ ρ.entries, p.2 = q.2 → p.1 = q.1)
    ⟨fun h x x' y hx hx' => h (x, y) (mem_entries.mpr hx) (x', y) (mem_entries.mpr hx') rfl,
      fun h p hp q hq heq => h p.1 q.1 p.2 (mem_entries.mp hp) (heq ▸ mem_entries.mp hq)⟩

theorem target?_inverse_of_not_mem {ρ : Renaming} {y : String} (h : y ∉ ρ.values) :
    ρ.inverse.target? y = none := by
  refine target?_eq_none fun entry hentry heq => h ?_
  exact mem_values.mpr ⟨entry.2, mem_inverse.mp (heq ▸ hentry)⟩

section Inverse

variable {ρ : Renaming} {o : Occurrence} {x y : String}

theorem Injective.target?_inverse (hρ : ρ.Injective) :
    ρ.inverse.target? y = some x ↔ ρ.target? x = some y := by
  constructor
  · exact fun h => mem_inverse.mp (mem_of_target? h)
  · intro h
    cases hy : ρ.inverse.target? y with
    | none =>
        have hne := List.lookup_eq_none_iff.mp hy (y, x) (mem_inverse.mpr h)
        simp at hne
    | some x' => rw [hρ x x' y h (mem_inverse.mp (mem_of_target? hy))]

/-- Behind the check, the way back finds each occurrence as it was. -/
theorem occurrence_inverse (hρ : ρ.Injective) (h : ρ.keeps ρ.values o = true) :
    ρ.inverse.occurrence .initial (ρ.occurrence .initial o) = o := by
  obtain ⟨hsame, hstays⟩ := keeps_iff.mp h
  cases hfree : o.isFree with
  | false => rw [occurrence_of_bound hfree, occurrence_of_bound hfree]
  | true =>
      rw [occurrence_of_free (hsame.trans hfree), occurrence_of_free hfree, name_initial,
        name_initial]
      cases hx : ρ.target? o.name with
      | none =>
          have hnone := target?_inverse_of_not_mem (hstays hfree hx)
          simp [hnone]
      | some y =>
          have hback := hρ.target?_inverse.mpr hx
          simp [hback]

/-- The check passes on the way back as well. -/
theorem keeps_inverse (hρ : ρ.Injective) (h : ρ.keeps ρ.values o = true) :
    ρ.inverse.keeps ρ.inverse.values (ρ.occurrence .initial o) = true := by
  obtain ⟨hsame, -⟩ := keeps_iff.mp h
  refine keeps_iff.mpr ⟨?_, fun hfree hnone hmem => ?_⟩
  · rw [occurrence_inverse hρ h, hsame]
  · rw [occurrence_of_free (hsame.symm.trans hfree)] at hnone hmem
    rw [name_initial] at hnone hmem
    obtain ⟨z, hz⟩ := mem_values.mp hmem
    rw [hρ.target?_inverse] at hz
    cases hx : ρ.target? o.name with
    | none => simp [hx] at hz
    | some y =>
        rw [hx, Option.getD_some, hρ.target?_inverse.mpr hx] at hnone
        cases hnone

/-- A renaming that gives no two names the same new name and passes the check, with its new names
reserved, is undone by its inverse; and the inverse passes the check in its turn. -/
theorem stmts_inverse (hρ : ρ.Injective) {b : Block} (h : ρ.preserves ρ.values b = true) :
    ρ.inverse.stmts (ρ.stmts b) = b ∧
      ρ.inverse.preserves ρ.inverse.values (ρ.stmts b) = true := by
  have hkeeps : ∀ o ∈ b.occurrences, ρ.keeps ρ.values o = true := List.all_eq_true.mp h
  have hrenamed : (ρ.stmts b).occurrences = b.occurrences.map (ρ.occurrence .initial) :=
    Block.occurrences_renameFrom ρ b .initial
  constructor
  · refine Block.eq_of_blanked_eq ?_ (congrArg (List.map Occurrence.name) ?_)
    · rw [stmts, stmts, Block.blanked_renameFrom, Block.blanked_renameFrom]
    · calc (ρ.inverse.stmts (ρ.stmts b)).occurrences
        _ = (ρ.stmts b).occurrences.map (ρ.inverse.occurrence .initial) :=
          Block.occurrences_renameFrom ρ.inverse (ρ.stmts b) .initial
        _ = b.occurrences.map id := by
          rw [hrenamed, List.map_map]
          exact List.map_congr_left fun o ho => occurrence_inverse hρ (hkeeps o ho)
        _ = b.occurrences := List.map_id _
  · rw [preserves, hrenamed, List.all_map, List.all_eq_true]
    exact fun o ho => keeps_inverse hρ (hkeeps o ho)

end Inverse

/-- Two names for each other. -/
def swapped : Renaming :=
  [("a", "b"), ("b", "a")]

/-- Statements that use two names from outside, and declare each of them further in. -/
def swappedUses : Block :=
  [.assign ["a", "b"] (.call "g" [.variable "b", .variable "c"]),
    .block [.declareUntyped ["a"] (some (.variable "b")), .assign ["a"] (.variable "c")],
    .loop [.declareUntyped ["b"] (some (.variable "a"))] (.call "lt" [.variable "b"]) []
      [.define "f" [.untyped "a"] [] [.assign ["a"] (.variable "b")]]]

theorem swapped_stmts_inverse :
    swapped.Injective ∧ swapped.preserves swapped.values swappedUses = true ∧
      swapped.inverse.stmts (swapped.stmts swappedUses) = swappedUses ∧
      swapped.inverse.preserves swapped.inverse.values (swapped.stmts swappedUses) = true := by
  have hinjective : swapped.Injective := by decide
  have hpreserves : swapped.preserves swapped.values swappedUses = true := by decide
  exact ⟨hinjective, hpreserves, stmts_inverse hinjective hpreserves⟩

/-- Without reserved names, two variables may end up with one name. -/
example :
    Renaming.preserves [("a", "b")] [] [.assign ["a"] (.variable "b")] = true ∧
      Renaming.stmts [("b", "a")] (Renaming.stmts [("a", "b")] [.assign ["a"] (.variable "b")]) ≠
        [.assign ["a"] (.variable "b")] := by
  decide

/-! ## Equality up to declared names -/

/-- A name stands for its new name; without one it stands for itself, unless it is reserved. -/
def linksExcept (ρ : Renaming) (reserved : Names) : Matching :=
  fun x y => ρ.links x y ∧ (ρ.target? x = none → x ∉ reserved)

section Links

variable {ρ : Renaming} {reserved : Names} {x x' y y' : String}

theorem links_of_target? (hx : ρ.target? x = some y) : ρ.links x y' ↔ y' = y := by
  rw [links, hx, Option.getD_some]

theorem links_of_none (hx : ρ.target? x = none) : ρ.links x y ↔ y = x := by
  rw [links, hx, Option.getD_none]

theorem linksExcept_right (h : ρ.linksExcept reserved x y) (h' : ρ.linksExcept reserved x y') :
    y = y' :=
  h.1.trans h'.1.symm

/-- With the new names reserved, nothing stands for a new name but the name that has it. -/
theorem Injective.linksExcept_left (hρ : ρ.Injective) (h : ρ.linksExcept ρ.values x y)
    (h' : ρ.linksExcept ρ.values x' y) : x = x' := by
  obtain ⟨hlink, hstays⟩ := h
  obtain ⟨hlink', hstays'⟩ := h'
  cases hx : ρ.target? x with
  | none =>
      obtain rfl := (links_of_none hx).mp hlink
      cases hx' : ρ.target? x' with
      | none => exact (links_of_none hx').mp hlink'
      | some z =>
          obtain rfl := (links_of_target? hx').mp hlink'
          exact absurd (mem_values.mpr ⟨x', hx'⟩) (hstays hx)
  | some z =>
      obtain rfl := (links_of_target? hx).mp hlink
      cases hx' : ρ.target? x' with
      | none =>
          obtain rfl := (links_of_none hx').mp hlink'
          exact absurd (mem_values.mpr ⟨x, hx⟩) (hstays' hx')
      | some z =>
          obtain rfl := (links_of_target? hx').mp hlink'
          exact hρ x x' _ hx hx'

theorem respects_linksExcept {o : Occurrence} (h : ρ.keeps reserved o = true) :
    ρ.Respects (ρ.linksExcept reserved) o := by
  intro hfree
  have hlinks := respects_links h hfree
  have hstays := (keeps_iff.mp h).2 hfree
  cases hx : ρ.target? o.name with
  | none =>
      rw [hx] at hlinks
      exact ⟨hlinks, hstays⟩
  | some y =>
      rw [hx] at hlinks
      exact ⟨⟨hlinks.1, hstays⟩, hlinks.2⟩

theorem matches_stmt_of_preserves {s : Stmt} (h : ρ.preserves reserved [s] = true) :
    s.Matches (ρ.linksExcept reserved) (ρ.stmt s) :=
  matches_stmt fun o ho => respects_linksExcept (List.all_eq_true.mp h o ho)

end Links

/-- Statements that are equal up to declared names still are when they are renamed, if the renaming
is not caught in either of them.  If it gives no two names the same new name, and passes the check
with its new names reserved, then they were equal if they are now. -/
theorem alphaEq_stmt (ρ : Renaming) (s t : Stmt) :
    (ρ.preserves [] [s] = true → ρ.preserves [] [t] = true → s.alphaEq t = true →
      (ρ.stmt s).alphaEq (ρ.stmt t) = true) ∧
    (ρ.Injective → ρ.preserves ρ.values [s] = true → ρ.preserves ρ.values [t] = true →
      (ρ.stmt s).alphaEq (ρ.stmt t) = true → s.alphaEq t = true) := by
  simp only [Stmt.alphaEq_iff]
  constructor
  · intro hs ht h
    -- Looking back, a variable of the renamed statements stands for just one that they had.
    exact (matches_stmt_of_preserves hs).symm.cancel h (matches_stmt_of_preserves ht).symm
      linksExcept_right
  · intro hρ hs ht h
    exact (matches_stmt_of_preserves hs).cancel h (matches_stmt_of_preserves ht)
      hρ.linksExcept_left

/-- A loop that declares two names. -/
def countingLoop (i k : String) : Stmt :=
  .loop [.declareUntyped [i] (some (.variable "a"))] (.call "lt" [.variable i, .variable "b"])
    [.assign [i] (.call "next" [.variable i])]
    [.declareUntyped [k] (some (.variable i)), .assign ["a", i] (.call "f" [.variable k])]

theorem swapped_alphaEq_stmt :
    (swapped.preserves [] [countingLoop "i" "k"] = true ∧
      swapped.preserves [] [countingLoop "k" "i"] = true ∧
      (countingLoop "i" "k").alphaEq (countingLoop "k" "i") = true ∧
      (swapped.stmt (countingLoop "i" "k")).alphaEq (swapped.stmt (countingLoop "k" "i")) = true) ∧
    swapped.Injective ∧ swapped.preserves swapped.values [countingLoop "i" "k"] = true ∧
      swapped.preserves swapped.values [countingLoop "k" "i"] = true ∧
      (swapped.stmt (countingLoop "i" "k")).alphaEq (swapped.stmt (countingLoop "k" "i")) = true ∧
      (countingLoop "i" "k").alphaEq (countingLoop "k" "i") = true := by
  obtain ⟨hforward, hback⟩ :=
    alphaEq_stmt swapped (countingLoop "i" "k") (countingLoop "k" "i")
  have hs : swapped.preserves [] [countingLoop "i" "k"] = true := by decide
  have ht : swapped.preserves [] [countingLoop "k" "i"] = true := by decide
  have hequal : (countingLoop "i" "k").alphaEq (countingLoop "k" "i") = true := by decide
  have hinjective : swapped.Injective := by decide
  have hs' : swapped.preserves swapped.values [countingLoop "i" "k"] = true := by decide
  have ht' : swapped.preserves swapped.values [countingLoop "k" "i"] = true := by decide
  have hrenamed := hforward hs ht hequal
  exact ⟨⟨hs, ht, hequal, hrenamed⟩, hinjective, hs', ht', hrenamed,
    hback hinjective hs' ht' hrenamed⟩

/-- The new name may be caught in one of two equal statements only, by what it declares. -/
example :
    (countingLoop "k" "i").alphaEq (countingLoop "i" "c") = true ∧
      Renaming.preserves [("b", "k")] [] [countingLoop "i" "c"] = true ∧
      (Renaming.stmt [("b", "k")] (countingLoop "k" "i")).alphaEq
        (Renaming.stmt [("b", "k")] (countingLoop "i" "c")) = false := by
  decide

end Renaming

end SwitchHoist
