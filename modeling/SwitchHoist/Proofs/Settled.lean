import SwitchHoist.Proofs.ValidityKept

/-!
# Programs that the pass leaves alone

A switch is ready if all its cases start with the same statement and this statement may
move in front of it.  A program is settled if no switch in it is ready, at any depth.
These are the programs that the pass leaves alone: it changes a program exactly if it
finds a switch that is ready.

One run need not settle a program.  A run takes no name twice from one switch, so it stops
at a second declaration of a name; the next run has forgotten the first one.
-/

namespace SwitchHoist

/-- A statement `t` in front of `rest` may go where `s` moves: both do the same, and the
names that `t` declares can have those of `s` instead. -/
structure Stmt.StandsFor (equivalent : Equivalence) (s t : Stmt) (rest : Block) : Prop where
  equal : equivalent s t = true
  kept : s.isDeclaration = true →
    (Renaming.insertAll [] t.declared s.declared).preserves s.declared rest = true

/-- The cases of a switch start with the same statement, and it may move in front of the
switch.  The live names are those used behind the switch in the same scope. -/
inductive Case.Ready (equivalent : Equivalence) (live : Names) (scrutinee : Expr) :
    List Case → Prop where
  | intro {value : Option Literal} {s : Stmt} {rest : Block} {others : List Case} :
      (Pinned.ofSwitch scrutinee (⟨value, s :: rest⟩ :: others)).allows s = true →
      (∀ x ∈ s.declared, x ∉ live) →
      (∀ c ∈ others, ∃ t rest', c.body = t :: rest' ∧ s.StandsFor equivalent t rest') →
      Ready equivalent live scrutinee (⟨value, s :: rest⟩ :: others)

/-- A statement that is no switch that is ready. -/
def Stmt.Stays (equivalent : Equivalence) (live : Names) (s : Stmt) : Prop :=
  ∀ scrutinee cases, s = .switch scrutinee cases → ¬Case.Ready equivalent live scrutinee cases

mutual

/-- No switch inside a statement is ready. -/
def Stmt.Settled (equivalent : Equivalence) : Stmt → Prop
  | .define _ _ _ body => Block.Settled equivalent body []
  | .branch _ body => Block.Settled equivalent body []
  | .switch _ cases => Case.Settled equivalent cases
  | .loop pre condition post body =>
      Block.Settled equivalent pre (loopNames condition post body) ∧
        Block.Settled equivalent post [] ∧ Block.Settled equivalent body []
  | .block body => Block.Settled equivalent body []
  | _ => True

/-- No switch in a block is ready, where `live` are the names used behind the block in the
same scope. -/
def Block.Settled (equivalent : Equivalence) : List Stmt → Names → Prop
  | [], _ => True
  | s :: rest, live =>
      s.Settled equivalent ∧ s.Stays equivalent (Block.freeNames rest ++ live) ∧
        Block.Settled equivalent rest live

/-- No switch in the bodies of some cases is ready. -/
def Case.Settled (equivalent : Equivalence) : List Case → Prop
  | [] => True
  | ⟨_, body⟩ :: rest => Block.Settled equivalent body [] ∧ Case.Settled equivalent rest

end

variable {equivalent : Equivalence}

/-! ## Switches that give up nothing -/

theorem exists_forall₂_left_iff {α β : Type} {R : α → β → Prop} {xs : List α} :
    (∃ ys, List.Forall₂ R xs ys) ↔ ∀ x ∈ xs, ∃ y, R x y := by
  induction xs with
  | nil => simp
  | cons x xs ih =>
      rw [List.forall_mem_cons, ← ih]
      constructor
      · rintro ⟨_, h⟩
        cases h with
        | cons hx hxs => exact ⟨⟨_, hx⟩, _, hxs⟩
      · rintro ⟨⟨y, hx⟩, ys, hxs⟩
        exact ⟨y :: ys, .cons hx hxs⟩

/-- The first step takes a statement from a case that starts with one that stands for
it. -/
theorem Follower.exists_step_ofCase_iff (h : equivalent.Faithful) {s : Stmt} {c : Case} :
    (∃ g t, Step equivalent [] s t (ofCase c) g) ↔
      ∃ t rest, c.body = t :: rest ∧ s.StandsFor equivalent t rest := by
  obtain ⟨value, body⟩ := c
  constructor
  -- At the first step the renaming of a case is still empty.
  · rintro ⟨g, t, hstep⟩
    have hequal := hstep.equal
    rw [ofCase, Renaming.stmt, Stmt.rename_nil] at hequal
    refine ⟨t, g.rest, hstep.rest, hequal, fun hs => ?_⟩
    have hkept := hstep.preserved hs
    rw [hstep.renames, List.nil_append] at hkept
    exact hkept
  · rintro ⟨t, rest, hbody, hequal, hkept⟩
    obtain ⟨hform, harity⟩ := h s t hequal
    refine ⟨⟨value, rest, Renaming.insertAll [] t.declared s.declared⟩, t, hbody, rfl, ?_, hform,
      harity, rfl, hkept⟩
    rw [ofCase, Renaming.stmt, Stmt.rename_nil]
    exact hequal

/-- The first step takes the first statement exactly if the switch is ready. -/
theorem PrefixContext.exists_take_ofCase_iff (ctx : PrefixContext) (h : ctx.equivalent.Faithful)
    (s : Stmt) (others : List Case) :
    (∃ result, ctx.take [] s (others.map Follower.ofCase) = .ok (some result)) ↔
      ctx.pinned.allows s = true ∧ (∀ x ∈ s.declared, x ∉ ctx.live) ∧
        ∀ c ∈ others, ∃ t rest, c.body = t :: rest ∧ s.StandsFor ctx.equivalent t rest := by
  simp only [← Follower.exists_step_ofCase_iff h, ← exists_forall₂_left_iff]
  constructor
  · rintro ⟨⟨taken, followers⟩, htake⟩
    obtain ⟨hmay, -, hsteps⟩ := take_eq_some_iff.mp htake
    exact ⟨hmay.allowed, hmay.notLive, followers, List.forall₂_map_left_iff.mp hsteps⟩
  · rintro ⟨hallowed, hlive, followers, hsteps⟩
    have hmay : ctx.May [] s := ⟨hallowed, hlive, fun _ _ hx => nomatch hx⟩
    exact ⟨(_, followers), take_eq_some_iff.mpr ⟨hmay, rfl, List.forall₂_map_left_iff.mpr hsteps⟩⟩

/-- A prefix is empty exactly if the switch is not ready. -/
theorem hoistPrefix_eq_nil_iff (h : equivalent.Faithful) {live : Names} {scrutinee : Expr}
    {cases cases' : List Case} {hoisted : Block}
    (hhoist : hoistPrefix equivalent live scrutinee cases = .ok (hoisted, cases')) :
    hoisted = [] ↔ ¬Case.Ready equivalent live scrutinee cases := by
  cases cases with
  | nil => cases hhoist
  | cons first others =>
      obtain ⟨value, body⟩ := first
      simp only [hoistPrefix, bind_eq_ok_iff, Except.ok.injEq, Prod.mk.injEq] at hhoist
      obtain ⟨r, hsplit, rfl, -⟩ := hhoist
      cases body with
      | nil =>
          cases hsplit
          exact iff_of_true rfl fun hready => by cases hready
      | cons s rest =>
          have htake := PrefixContext.exists_take_ofCase_iff
            ⟨equivalent, Pinned.ofSwitch scrutinee (⟨value, s :: rest⟩ :: others), live⟩ h s others
          simp only [PrefixContext.split, bind_eq_ok_iff] at hsplit
          obtain ⟨result, hresult, hsplit⟩ := hsplit
          -- The prefix is empty exactly if the first step takes nothing.
          rw [hresult] at htake
          cases result with
          | none =>
              cases hsplit
              refine iff_of_true rfl fun hready => ?_
              cases hready with
              | intro hallowed hlive hothers =>
                  obtain ⟨result, hsome⟩ := htake.mpr ⟨hallowed, hlive, hothers⟩
                  cases hsome
          | some result =>
              obtain ⟨hallowed, hlive, hothers⟩ := htake.mp ⟨result, rfl⟩
              simp only [bind_eq_ok_iff, Except.ok.injEq] at hsplit
              obtain ⟨r', -, rfl⟩ := hsplit
              exact iff_of_false (List.cons_ne_nil s r'.hoisted)
                (not_not.mpr (.intro hallowed hlive hothers))

theorem Follower.toCase_ofCase (c : Case) : (ofCase c).toCase = c := by
  obtain ⟨value, body⟩ := c
  rw [toCase, ofCase, Renaming.stmts, Block.renameFrom_nil]

/-- Without a prefix the cases are what they were. -/
theorem hoistPrefix_cases_eq {live : Names} {scrutinee : Expr} {cases cases' : List Case}
    (h : hoistPrefix equivalent live scrutinee cases = .ok ([], cases')) : cases' = cases := by
  obtain ⟨⟨value, body⟩, others, rest, followers, rfl, hfirst, rfl, -, hruns⟩ :=
    hoistPrefix_eq_ok h
  have hfirst : body = rest := hfirst
  have hothers : followers.map Follower.toCase = others := by
    clear h
    induction hruns with
    | nil => rfl
    | cons hrun _ ih =>
        cases hrun
        rw [List.map_cons, ih, Follower.toCase_ofCase]
  rw [hfirst, hothers]

/-- What the pass puts in the place of a statement is the statement itself exactly if it is
no switch that is ready. -/
theorem Stmt.hoistOut_eq_self_iff (h : equivalent.Faithful) {after : Block} {live : Names}
    {s : Stmt} (hs : s.HasCases) :
    s.hoistOut equivalent after live = .ok [s] ↔
      s.Stays equivalent (Block.freeNames after ++ live) := by
  obtain ⟨front, hfront⟩ := Stmt.exists_hoistOut h after live hs
  rw [hfront]
  rcases Stmt.hoistOut_eq_ok hfront with
    ⟨hother, rfl⟩ | ⟨e, cases, hoisted, cases', rfl, hhoist, rfl⟩
  · exact iff_of_true rfl fun scrutinee cases heq => absurd heq (hother scrutinee cases)
  · have hstays : (Stmt.switch e cases).Stays equivalent (Block.freeNames after ++ live) ↔
        hoisted = [] := by
      rw [hoistPrefix_eq_nil_iff h hhoist]
      constructor
      · exact fun hstays => hstays e cases rfl
      · intro hready scrutinee cases' heq
        cases heq
        exact hready
    rw [hstays, Except.ok.injEq]
    constructor
    -- A prefix would make the block longer.
    · intro heq
      have hlength := congrArg List.length heq
      rw [List.length_append] at hlength
      exact List.eq_nil_of_length_eq_zero (Nat.succ.inj hlength)
    · rintro rfl
      rw [hoistPrefix_cases_eq hhoist, List.nil_append]

/-! ## Programs that the pass leaves alone -/

theorem Stmt.length_hoistOut {after front : Block} {live : Names} {s : Stmt}
    (h : s.hoistOut equivalent after live = .ok front) : 1 ≤ front.length := by
  rcases Stmt.hoistOut_eq_ok h with ⟨-, rfl⟩ | ⟨e, cases, hoisted, cases', rfl, -, rfl⟩
  · exact Nat.le_refl 1
  · rw [List.length_append]
    exact Nat.le_add_left 1 _

/-- A block does not get shorter. -/
theorem Block.length_hoistBefore (b : List Stmt) {b' : Block} {live : Names}
    (h : Block.hoistBefore equivalent b live = .ok b') : b.length ≤ b'.length := by
  induction b generalizing b' with
  | nil => exact Nat.zero_le _
  | cons s rest ih =>
      obtain ⟨s', front, rest', -, hfront, hrest, rfl⟩ := Block.hoistBefore_cons_eq_ok.mp h
      have hone : 1 ≤ front.length := Stmt.length_hoistOut hfront
      have hlength : rest.length ≤ rest'.length := ih hrest
      rw [List.length_cons, List.length_append]
      omega

/-- The pass leaves a block alone if it leaves its first statement alone, has nothing to
put in front of it, and leaves the others alone. -/
theorem Block.hoistBefore_cons_eq_self_iff {s : Stmt} {rest : Block} {live : Names} :
    Block.hoistBefore equivalent (s :: rest) live = .ok (s :: rest) ↔
      s.hoistWithin equivalent = .ok s ∧ s.hoistOut equivalent rest live = .ok [s] ∧
        Block.hoistBefore equivalent rest live = .ok rest := by
  constructor
  · intro h
    obtain ⟨s', front, rest', hs, hfront, hrest, heq⟩ := Block.hoistBefore_cons_eq_ok.mp h
    -- Neither part gets shorter, so each has the length it had.
    have hone := Stmt.length_hoistOut hfront
    have hlength := Block.length_hoistBefore rest hrest
    have htotal := congrArg List.length heq
    rw [List.length_cons, List.length_append] at htotal
    have hsingle : [s].length = front.length := by
      rw [List.length_singleton]
      omega
    have heq : [s] ++ rest = front ++ rest' := heq
    obtain ⟨rfl, rfl⟩ := List.append_inj heq hsingle
    suffices hsame : s' = s by
      rw [hsame] at hs hfront
      exact ⟨hs, hfront, hrest⟩
    rcases Stmt.hoistOut_eq_ok hfront with
      ⟨-, heq⟩ | ⟨e, cases, hoisted, cases', rfl, hhoist, heq⟩
    · exact (List.singleton_inj.mp heq).symm
    · have hempty := congrArg List.length heq
      rw [List.length_append] at hempty
      obtain rfl := List.eq_nil_of_length_eq_zero (Nat.succ.inj hempty).symm
      rw [hoistPrefix_cases_eq hhoist] at heq
      exact (List.singleton_inj.mp heq).symm
  · rintro ⟨hs, hfront, hrest⟩
    exact Block.hoistBefore_cons_eq_ok.mpr ⟨s, [s], rest, hs, hfront, hrest, rfl⟩

mutual

theorem Stmt.hoistWithin_eq_self_iff (h : equivalent.Faithful) : (s : Stmt) →
    s.Each Stmt.HasCases → (s.hoistWithin equivalent = .ok s ↔ s.Settled equivalent)
  | .define name params returns body, heach => by
      rw [Stmt.each_define] at heach
      rw [Stmt.Settled, ← Block.hoistBefore_eq_self_iff h body [] heach.2]
      simp [Stmt.hoistWithin, bind_eq_ok_iff]
  | .branch c body, heach => by
      rw [Stmt.each_branch] at heach
      rw [Stmt.Settled, ← Block.hoistBefore_eq_self_iff h body [] heach.2]
      simp [Stmt.hoistWithin, bind_eq_ok_iff]
  | .switch e cases, heach => by
      rw [Stmt.each_switch] at heach
      rw [Stmt.Settled, ← Case.hoistAll_eq_self_iff h cases heach.2]
      simp [Stmt.hoistWithin, bind_eq_ok_iff]
  | .loop pre c post body, heach => by
      rw [Stmt.each_loop] at heach
      rw [Stmt.Settled, ← Block.hoistBefore_eq_self_iff h pre _ heach.2.1,
        ← Block.hoistBefore_eq_self_iff h post [] heach.2.2.1,
        ← Block.hoistBefore_eq_self_iff h body [] heach.2.2.2]
      simp [Stmt.hoistWithin, bind_eq_ok_iff]
  | .block body, heach => by
      rw [Stmt.each_block] at heach
      rw [Stmt.Settled, ← Block.hoistBefore_eq_self_iff h body [] heach.2]
      simp [Stmt.hoistWithin, bind_eq_ok_iff]
  | .expr _, _ => iff_of_true rfl trivial
  | .assign .., _ => iff_of_true rfl trivial
  | .declare .., _ => iff_of_true rfl trivial
  | .break, _ => iff_of_true rfl trivial
  | .continue, _ => iff_of_true rfl trivial
  | .leave, _ => iff_of_true rfl trivial

/-- The pass leaves a block alone exactly if it is settled. -/
theorem Block.hoistBefore_eq_self_iff (h : equivalent.Faithful) : (b : List Stmt) →
    (live : Names) → Block.Each Stmt.HasCases b →
    (Block.hoistBefore equivalent b live = .ok b ↔ Block.Settled equivalent b live)
  | [], _, _ => iff_of_true rfl trivial
  | s :: rest, live, heach => by
      rw [Block.each_cons] at heach
      rw [Block.hoistBefore_cons_eq_self_iff, Block.Settled,
        Stmt.hoistWithin_eq_self_iff h s heach.1, Stmt.hoistOut_eq_self_iff h heach.1.head,
        Block.hoistBefore_eq_self_iff h rest live heach.2]

theorem Case.hoistAll_eq_self_iff (h : equivalent.Faithful) : (cases : List Case) →
    Case.Each Stmt.HasCases cases →
    (Case.hoistAll equivalent cases = .ok cases ↔ Case.Settled equivalent cases)
  | [], _ => iff_of_true rfl trivial
  | ⟨value, body⟩ :: rest, heach => by
      rw [Case.each_cons] at heach
      rw [Case.Settled, ← Block.hoistBefore_eq_self_iff h body [] heach.1,
        ← Case.hoistAll_eq_self_iff h rest heach.2]
      simp [Case.hoistAll, bind_eq_ok_iff]

end

end SwitchHoist
