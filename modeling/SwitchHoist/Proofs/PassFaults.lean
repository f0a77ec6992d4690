import SwitchHoist.Proofs.SecondRun

/-!
# When the pass is at fault

With an equivalence that takes declarations for declarations of equally many names only,
there is one fault left: a switch without cases.  The pass comes to every switch of a
program, so one empty switch anywhere, however deep, is enough.  A valid program has none,
and since it stays valid, no list of steps fails on it.
-/

namespace SwitchHoist

/-! ## A fault comes from an empty switch -/

section Faults

variable {equivalent : Equivalence} {fault : Fault}

/-- A fault that names an empty switch among some statements. -/
def Fault.NamesEmpty (fault : Fault) (statements : List Stmt) : Prop :=
  ∃ e, fault = .emptySwitch e ∧ Stmt.switch e [] ∈ statements

theorem Fault.NamesEmpty.mono {b c : List Stmt} (h : fault.NamesEmpty b) (hsub : b ⊆ c) :
    fault.NamesEmpty c := by
  obtain ⟨e, rfl, he⟩ := h
  exact ⟨e, rfl, hsub he⟩

theorem hoistPrefix_eq_error (h : equivalent.Faithful) {live : Names} {e : Expr}
    {cases : List Case} (hfault : hoistPrefix equivalent live e cases = .error fault) :
    cases = [] ∧ fault = .emptySwitch e := by
  by_cases hcases : cases = []
  · subst hcases
    cases hfault
    exact ⟨rfl, rfl⟩
  · obtain ⟨hoisted, cases', hok⟩ := exists_hoistPrefix h live e hcases
    rw [hok] at hfault
    cases hfault

theorem Stmt.hoistOut_eq_error (h : equivalent.Faithful) {after : Block} {live : Names}
    {s : Stmt} (hfault : s.hoistOut equivalent after live = .error fault) :
    ∃ e, s = .switch e [] ∧ fault = .emptySwitch e := by
  cases s with
  | switch e cases =>
      rw [Stmt.hoistOut, bind_eq_error_iff] at hfault
      rcases hfault with hfault | ⟨result, -, hresult⟩
      · obtain ⟨rfl, rfl⟩ := hoistPrefix_eq_error h hfault
        exact ⟨e, rfl, rfl⟩
      · cases hresult
  | _ => cases hfault

/-- Dealing with the blocks of a switch makes no case go away. -/
theorem Stmt.Hoists.eq_emptySwitch {s : Stmt} {e : Expr}
    (h : s.Hoists equivalent (.switch e [])) : s = .switch e [] := by
  cases h with
  | switch _ hcases =>
      cases hcases
      rfl
  | same => rfl

mutual

theorem Stmt.fault_hoistWithin (h : equivalent.Faithful) : (s : Stmt) →
    s.hoistWithin equivalent = .error fault → fault.NamesEmpty s.subtree
  | .define _ _ _ body, hfault => by
      rw [Stmt.hoistWithin, bind_ok_eq_error_iff] at hfault
      exact (Block.fault_hoistBefore h body hfault).mono (List.subset_cons_self ..)
  | .branch _ body, hfault => by
      rw [Stmt.hoistWithin, bind_ok_eq_error_iff] at hfault
      exact (Block.fault_hoistBefore h body hfault).mono (List.subset_cons_self ..)
  | .switch _ cases, hfault => by
      rw [Stmt.hoistWithin, bind_ok_eq_error_iff] at hfault
      exact (Case.fault_hoistAll h cases hfault).mono (List.subset_cons_self ..)
  | .loop pre _ post body, hfault => by
      simp only [Stmt.hoistWithin, bind_eq_error_iff, reduceCtorEq, and_false, exists_false,
        or_false] at hfault
      -- The first of the three blocks that fails is the one that is at fault.
      rcases hfault with hpre | ⟨_, -, hpost | ⟨_, -, hbody⟩⟩
      · refine (Block.fault_hoistBefore h pre hpre).mono fun t ht => ?_
        simp [Stmt.subtree, ht]
      · refine (Block.fault_hoistBefore h post hpost).mono fun t ht => ?_
        simp [Stmt.subtree, ht]
      · refine (Block.fault_hoistBefore h body hbody).mono fun t ht => ?_
        simp [Stmt.subtree, ht]
  | .block body, hfault => by
      rw [Stmt.hoistWithin, bind_ok_eq_error_iff] at hfault
      exact (Block.fault_hoistBefore h body hfault).mono (List.subset_cons_self ..)
  | .expr _, hfault => nomatch hfault
  | .assign .., hfault => nomatch hfault
  | .declare .., hfault => nomatch hfault
  | .break, hfault => nomatch hfault
  | .continue, hfault => nomatch hfault
  | .leave, hfault => nomatch hfault

/-- A fault of the pass names a switch without cases that it was given. -/
theorem Block.fault_hoistBefore (h : equivalent.Faithful) : (b : List Stmt) → {live : Names} →
    Block.hoistBefore equivalent b live = .error fault → fault.NamesEmpty (Block.subtrees b)
  | [], _, hfault => nomatch hfault
  | s :: rest, live, hfault => by
      simp only [Block.hoistBefore, bind_eq_error_iff, reduceCtorEq, and_false, exists_false,
        or_false] at hfault
      rw [Block.subtrees]
      rcases hfault with hwithin | ⟨s', hs, hout | ⟨front, -, hrest⟩⟩
      · exact (Stmt.fault_hoistWithin h s hwithin).mono (List.subset_append_left ..)
      · obtain ⟨e, rfl, rfl⟩ := Stmt.hoistOut_eq_error h hout
        obtain rfl := (Stmt.hoists_of_eq_ok s hs).eq_emptySwitch
        exact ⟨e, rfl, List.mem_append_left _ (Stmt.mem_subtree_self _)⟩
      · exact (Block.fault_hoistBefore h rest hrest).mono (List.subset_append_right ..)

theorem Case.fault_hoistAll (h : equivalent.Faithful) : (cases : List Case) →
    Case.hoistAll equivalent cases = .error fault → fault.NamesEmpty (Case.subtrees cases)
  | [], hfault => nomatch hfault
  | ⟨_, body⟩ :: rest, hfault => by
      simp only [Case.hoistAll, bind_eq_error_iff, reduceCtorEq, and_false, exists_false,
        or_false] at hfault
      rw [Case.subtrees]
      rcases hfault with hbody | ⟨_, -, hrest⟩
      · exact (Block.fault_hoistBefore h body hbody).mono (List.subset_append_left ..)
      · exact (Case.fault_hoistAll h rest hrest).mono (List.subset_append_right ..)

end

/-! ## An empty switch is met -/

/-- What the pass has put in the place of a statement, it was no empty switch. -/
theorem Stmt.Hoists.hasCases_of_hoistOut {s s' : Stmt} (hs : s.Hoists equivalent s')
    {after front : Block} {live : Names} (hfront : s'.hoistOut equivalent after live = .ok front) :
    s.HasCases := by
  rintro e rfl
  cases hs with
  | switch _ hcases =>
      cases hcases
      cases hfront
  | same => cases hfront

mutual

theorem Stmt.Hoists.blocks_hasCases : {s s' : Stmt} → s.Hoists equivalent s' →
    ∀ b ∈ s.blocks, Block.Each Stmt.HasCases b
  | _, _, .define _ _ _ hbody => List.forall_mem_singleton.mpr hbody.hasCases
  | _, _, .branch _ hbody => List.forall_mem_singleton.mpr hbody.hasCases
  | _, _, .switch _ hcases => List.forall_mem_map.mpr (Case.each_iff.mp hcases.hasCases)
  | _, _, .loop _ hpre hpost hbody => by
      simp only [Stmt.blocks, List.forall_mem_cons]
      exact ⟨hpre.hasCases, hpost.hasCases, hbody.hasCases, fun _ hb => nomatch hb⟩
  | _, _, .block hbody => List.forall_mem_singleton.mpr hbody.hasCases
  | _, _, .same hblocks => fun b hb => by
      rw [hblocks] at hb
      cases hb

/-- Where the pass ends, no switch was without cases. -/
theorem Block.Hoists.hasCases : {live : Names} → {b b' : List Stmt} →
    Block.Hoists equivalent live b b' → Block.Each Stmt.HasCases b
  | _, _, _, .nil => Block.each_nil
  | _, _, _, .cons hs hfront hrest =>
      Block.each_cons.mpr
        ⟨Stmt.each_iff.mpr ⟨hs.hasCases_of_hoistOut hfront, hs.blocks_hasCases⟩, hrest.hasCases⟩

theorem Case.Hoists.hasCases : {cases cases' : List Case} → Case.Hoists equivalent cases cases' →
    Case.Each Stmt.HasCases cases
  | _, _, .nil => Case.each_nil
  | _, _, .cons _ hbody hrest => Case.each_cons.mpr ⟨hbody.hasCases, hrest.hasCases⟩

end

end Faults

/-! ## Programs -/

/-- Steps that run one after another on a valid program end with a valid program. -/
theorem Block.IsValid.exists_optimize {b : Block} (h : b.IsValid) (steps : List Step) :
    ∃ b', b.optimize steps = .ok b' ∧ b'.IsValid := by
  induction steps generalizing b with
  | nil => exact ⟨b, rfl, h⟩
  | cons step rest ih =>
      obtain ⟨q, hq, hqvalid⟩ := h.exists_hoist
      have hrun : step.run b = .ok q := by
        cases step
        exact h.checked_hoist_eq_ok_iff.mpr hq
      obtain ⟨b', hb', hvalid⟩ := ih hqvalid
      refine ⟨b', ?_, hvalid⟩
      rw [Block.optimize_cons, hrun]
      exact hb'

/-- The pass is at fault exactly if a switch of the program has no case, and the fault then
names such a switch.  On a valid program it gives a valid program, and so do any steps. -/
theorem Block.hoist_error_iff_emptySwitch (b : Block) :
    ((∃ fault, b.hoist Stmt.alphaEq = .error fault) ↔
      ∃ e, Stmt.switch e [] ∈ Block.subtrees b) ∧
    (∀ fault, b.hoist Stmt.alphaEq = .error fault →
      ∃ e, fault = .emptySwitch e ∧ Stmt.switch e [] ∈ Block.subtrees b) ∧
    (b.IsValid →
      (∃ b', b.hoist Stmt.alphaEq = .ok b' ∧ b'.IsValid ∧ b.hoistChecked = .ok b') ∧
      ∀ steps, ∃ b', b.optimize steps = .ok b' ∧ b'.IsValid) := by
  have hnames : ∀ fault, b.hoist Stmt.alphaEq = .error fault →
      fault.NamesEmpty (Block.subtrees b) :=
    fun _ hfault => Block.fault_hoistBefore Stmt.alphaEq_faithful b hfault
  refine ⟨⟨?_, ?_⟩, hnames, fun hvalid => ⟨?_, hvalid.exists_optimize⟩⟩
  · rintro ⟨fault, hfault⟩
    obtain ⟨e, -, he⟩ := hnames fault hfault
    exact ⟨e, he⟩
  · rintro ⟨e, he⟩
    cases hb : b.hoist Stmt.alphaEq with
    | error fault => exact ⟨fault, rfl⟩
    | ok b' =>
        -- A pass that ended has met no empty switch.
        exact absurd rfl ((Block.hoists_of_eq_ok b hb).hasCases _ he e)
  · obtain ⟨b', hb, hb'⟩ := hvalid.exists_hoist
    exact ⟨b', hb, hb', hvalid.checked_hoist_eq_ok_iff.mpr hb⟩

/-- A switch without cases inside a case of another one, behind a statement that could
move. -/
def nestedEmptySwitch : Block :=
  [.switch (.variable "x")
    [⟨some ⟨.number, "0", none⟩,
      [.expr (.call "f" []), .branch (.variable "y") [.switch (.call "g" []) []]]⟩,
    ⟨none, [.expr (.call "f" [])]⟩]]

theorem nestedEmptySwitch_hoist_error :
    nestedEmptySwitch.hoist Stmt.alphaEq = .error (.emptySwitch (.call "g" [])) ∧
    (∃ e, Fault.emptySwitch (.call "g" []) = .emptySwitch e ∧
      Stmt.switch e [] ∈ Block.subtrees nestedEmptySwitch) ∧
    redeclared.IsValid ∧
    (∃ b', redeclared.hoist Stmt.alphaEq = .ok b' ∧ b'.IsValid ∧
      redeclared.hoistChecked = .ok b') ∧
    ∀ steps, ∃ b', redeclared.optimize steps = .ok b' ∧ b'.IsValid := by
  have hfault : nestedEmptySwitch.hoist Stmt.alphaEq = .error (.emptySwitch (.call "g" [])) := rfl
  have hvalid : redeclared.IsValid := by decide +kernel
  exact ⟨hfault, (Block.hoist_error_iff_emptySwitch nestedEmptySwitch).2.1 _ hfault, hvalid,
    (Block.hoist_error_iff_emptySwitch redeclared).2.2 hvalid⟩

end SwitchHoist
