/-!
# Finite sets of names

A set of names is a list that is read through membership alone: order and
repetition carry no meaning.  `Names.sorted` gives the one list that stands for
a set where a set is shown.
-/

namespace SwitchHoist

/-- A finite set of names. -/
abbrev Names := List String

namespace Names

/-- Whether two sets have no name in common. -/
def disjoint (a b : Names) : Bool :=
  a.all fun x => !b.contains x

theorem disjoint_iff {a b : Names} : disjoint a b = true ↔ ∀ x ∈ a, x ∉ b := by
  simp [disjoint]

/-- The names of a set in order, each once.  Names are ordered by their
characters, which is also the order of their bytes. -/
def sorted (a : Names) : Names :=
  a.eraseDups.mergeSort fun x y => !decide (y < x)

end Names

end SwitchHoist
