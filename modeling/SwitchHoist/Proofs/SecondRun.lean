import SwitchHoist.Proofs.DistinctNames
import SwitchHoist.Step

/-!
# What a second run can do

Both checked ways to run the pass succeed on a valid program.  Running it again gives the
same program exactly if the first run has settled it, which it always does when no name is
bound twice.
-/

namespace SwitchHoist

theorem checked_eq_ok_iff {broken : List Violation → OptimizeError} {result : Except Fault Block}
    {b : Block} : checked broken result = .ok b ↔ result = .ok b ∧ b.IsValid := by
  cases result with
  | error fault => simp [checked]
  | ok b' =>
      simp only [checked, Except.ok.injEq]
      -- The check looks at the result only, and does not change it.
      split
      · next hvalid =>
          rw [Except.ok.injEq]
          exact ⟨fun heq => ⟨heq, heq ▸ hvalid⟩, And.left⟩
      · next hvalid =>
          refine iff_of_false nofun ?_
          rintro ⟨rfl, h⟩
          exact hvalid h

namespace Block.IsValid

variable {b b' : Block}

/-- The pass ends on a valid program, and gives a valid one. -/
theorem exists_hoist (h : b.IsValid) : ∃ b', b.hoist Stmt.alphaEq = .ok b' ∧ b'.IsValid := by
  obtain ⟨b', hb⟩ := Block.exists_hoistBefore Stmt.alphaEq_faithful b [] h.hasCases
  exact ⟨b', hb, h.hoist hb⟩

/-- The check behind the pass never fails on a valid program. -/
theorem checked_hoist_eq_ok_iff (h : b.IsValid) {broken : List Violation → OptimizeError} :
    checked broken (b.hoist Stmt.alphaEq) = .ok b' ↔ b.hoist Stmt.alphaEq = .ok b' := by
  rw [checked_eq_ok_iff]
  exact ⟨And.left, fun hb => ⟨hb, h.hoist hb⟩⟩

/-- The pass leaves a valid program alone exactly if it is settled. -/
theorem hoist_eq_self_iff (h : b.IsValid) :
    b.hoist Stmt.alphaEq = .ok b ↔ Block.Settled Stmt.alphaEq b [] :=
  Block.hoistBefore_eq_self_iff Stmt.alphaEq_faithful b [] h.hasCases

end Block.IsValid

theorem Block.optimize_cons {b : Block} {step : Step} {rest : List Step} :
    b.optimize (step :: rest) = step.run b >>= fun b => b.optimize rest := by
  rw [Block.optimize]

/-- A second run gives the program that the first one gave exactly if no switch in it is
ready, at any depth.  None is if the names in the program are distinct. -/
theorem Block.hoistChecked_again_iff {p : Block} (hvalid : p.IsValid) :
    ∃ q, p.hoistChecked = .ok q ∧
      (q.hoistChecked = .ok q ↔ Block.Settled Stmt.alphaEq q []) ∧
      (p.optimize [.commonSwitchPrefix, .commonSwitchPrefix] = p.optimize [.commonSwitchPrefix] ↔
        Block.Settled Stmt.alphaEq q []) ∧
      (p.Distinct → Block.Settled Stmt.alphaEq q []) := by
  obtain ⟨q, hq, hqvalid⟩ := hvalid.exists_hoist
  have hrun : Step.commonSwitchPrefix.run p = .ok q := hvalid.checked_hoist_eq_ok_iff.mpr hq
  refine ⟨q, hvalid.checked_hoist_eq_ok_iff.mpr hq, ?_, ?_, fun hdistinct => hdistinct.settled hq⟩
  · rw [← hqvalid.hoist_eq_self_iff]
    exact hqvalid.checked_hoist_eq_ok_iff
  -- Two steps are one step on `q`, so both ways to run the pass ask the same of `q`.
  · have hagain : q.optimize [.commonSwitchPrefix] = .ok q ↔ q.hoist Stmt.alphaEq = .ok q := by
      simp only [Block.optimize, bind_eq_ok_iff, Except.ok.injEq, exists_eq_right]
      exact hqvalid.checked_hoist_eq_ok_iff
    rw [← hqvalid.hoist_eq_self_iff, ← hagain, Block.optimize_cons (b := p), Block.optimize_cons,
      hrun]
    rfl

/-- Each case declares a name twice. -/
def redeclared : Block :=
  [.switch (.variable "x")
    [⟨some ⟨.number, "0", none⟩,
      [.declareUntyped ["a"] (some (.number "1")), .declareUntyped ["a"] (some (.number "2")),
        .expr (.call "f" [.variable "a"])]⟩,
    ⟨none,
      [.declareUntyped ["b"] (some (.number "1")), .declareUntyped ["b"] (some (.number "2")),
        .expr (.call "g" [.variable "b"])]⟩]]

theorem redeclared_hoistChecked_again_iff :
    redeclared.IsValid ∧ ∃ q, redeclared.hoistChecked = .ok q ∧
      (q.hoistChecked = .ok q ↔ Block.Settled Stmt.alphaEq q []) ∧
      (redeclared.optimize [.commonSwitchPrefix, .commonSwitchPrefix] =
          redeclared.optimize [.commonSwitchPrefix] ↔
        Block.Settled Stmt.alphaEq q []) ∧
      (redeclared.Distinct → Block.Settled Stmt.alphaEq q []) := by
  have hvalid : redeclared.IsValid := by decide +kernel
  exact ⟨hvalid, Block.hoistChecked_again_iff hvalid⟩

/-- The program behind the first run. -/
def redeclaredOnce : Block :=
  [.declareUntyped ["a"] (some (.number "1")),
    .switch (.variable "x")
      [⟨some ⟨.number, "0", none⟩,
        [.declareUntyped ["a"] (some (.number "2")), .expr (.call "f" [.variable "a"])]⟩,
      ⟨none,
        [.declareUntyped ["b"] (some (.number "2")), .expr (.call "g" [.variable "b"])]⟩]]

/-- The program behind the second run. -/
def redeclaredTwice : Block :=
  [.declareUntyped ["a"] (some (.number "1")), .declareUntyped ["a"] (some (.number "2")),
    .switch (.variable "x")
      [⟨some ⟨.number, "0", none⟩, [.expr (.call "f" [.variable "a"])]⟩,
      ⟨none, [.expr (.call "g" [.variable "a"])]⟩]]

/-- The first run leaves the second declarations in the cases, and the second run moves
them. -/
theorem redeclared_hoistChecked_again :
    redeclared.IsValid ∧ redeclared.hoistChecked = .ok redeclaredOnce ∧
      redeclaredOnce.hoistChecked ≠ .ok redeclaredOnce ∧
      redeclared.optimize [.commonSwitchPrefix, .commonSwitchPrefix] ≠
        redeclared.optimize [.commonSwitchPrefix] := by
  have honce : redeclared.hoistChecked = .ok redeclaredOnce := rfl
  have htwice : redeclaredOnce.hoistChecked = .ok redeclaredTwice := rfl
  have hstep : redeclared.optimize [.commonSwitchPrefix] = .ok redeclaredOnce := rfl
  have hsteps : redeclared.optimize [.commonSwitchPrefix, .commonSwitchPrefix] =
      .ok redeclaredTwice := rfl
  have hne : redeclaredTwice ≠ redeclaredOnce := nofun
  refine ⟨by decide +kernel, honce, ?_, ?_⟩
  · rw [htwice]
    exact fun heq => hne (Except.ok.inj heq)
  · rw [hsteps, hstep]
    exact fun heq => hne (Except.ok.inj heq)

end SwitchHoist
