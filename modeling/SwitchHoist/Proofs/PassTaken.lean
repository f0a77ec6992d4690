import SwitchHoist.Proofs.EveryStatement

/-!
# What the pass does to a program

The pass gives every statement with its blocks dealt with, behind the prefix it gave up
if it is a switch.  Said as a relation between what it is given and what it gives, a
property of the pass is proved along the statements, without a word about faults.  The
pass keeps stable properties of all statements, and without an empty switch and with an
equivalence that is never at fault it always ends.
-/

namespace SwitchHoist

theorem bind_eq_ok_iff {ε α β : Type} {x : Except ε α} {f : α → Except ε β} {b : β} :
    (x >>= f) = .ok b ↔ ∃ a, x = .ok a ∧ f a = .ok b := by
  cases x <;> simp [bind, Except.bind]

theorem bind_eq_error_iff {ε α β : Type} {x : Except ε α} {f : α → Except ε β} {e : ε} :
    (x >>= f) = .error e ↔ x = .error e ∨ ∃ a, x = .ok a ∧ f a = .error e := by
  cases x <;> simp [bind, Except.bind]

theorem bind_ok_eq_error_iff {ε α β : Type} {x : Except ε α} {g : α → β} {e : ε} :
    (x >>= fun a => .ok (g a)) = .error e ↔ x = .error e := by
  cases x <;> simp [bind, Except.bind]

variable {equivalent : Equivalence}

/-- What is put in the place of a statement whose blocks have been dealt with. -/
theorem Stmt.hoistOut_eq_ok {after front : Block} {live : Names} {s : Stmt}
    (h : s.hoistOut equivalent after live = .ok front) :
    (∀ scrutinee cases, s ≠ .switch scrutinee cases) ∧ front = [s] ∨
      ∃ scrutinee cases hoisted cases', s = .switch scrutinee cases ∧
        hoistPrefix equivalent (Block.freeNames after ++ live) scrutinee cases =
          .ok (hoisted, cases') ∧ front = hoisted ++ [.switch scrutinee cases'] := by
  cases s with
  | switch scrutinee cases =>
      simp only [Stmt.hoistOut, bind_eq_ok_iff, Except.ok.injEq] at h
      obtain ⟨⟨hoisted, cases'⟩, hhoist, rfl⟩ := h
      exact Or.inr ⟨scrutinee, cases, hoisted, cases', rfl, hhoist, rfl⟩
  | _ =>
      cases h
      exact Or.inl ⟨nofun, rfl⟩

theorem Block.hoistBefore_cons_eq_ok {s : Stmt} {rest b' : Block} {live : Names} :
    Block.hoistBefore equivalent (s :: rest) live = .ok b' ↔
      ∃ s' front rest', s.hoistWithin equivalent = .ok s' ∧
        s'.hoistOut equivalent rest live = .ok front ∧
        Block.hoistBefore equivalent rest live = .ok rest' ∧ b' = front ++ rest' := by
  simp only [Block.hoistBefore, bind_eq_ok_iff, Except.ok.injEq, eq_comm (a := b'), exists_and_left]

/-! ## The pass as a relation -/

mutual

/-- A statement, and the statement with the pass run on the blocks inside it. -/
inductive Stmt.Hoists (equivalent : Equivalence) : Stmt → Stmt → Prop where
  | define (name : String) (params returns : List TypedName) {body body' : Block} :
      Block.Hoists equivalent [] body body' →
      Stmt.Hoists equivalent (.define name params returns body) (.define name params returns body')
  | branch (c : Expr) {body body' : Block} :
      Block.Hoists equivalent [] body body' →
      Stmt.Hoists equivalent (.branch c body) (.branch c body')
  | switch (e : Expr) {cases cases' : List Case} :
      Case.Hoists equivalent cases cases' →
      Stmt.Hoists equivalent (.switch e cases) (.switch e cases')
  | loop (c : Expr) {pre pre' post post' body body' : Block} :
      Block.Hoists equivalent (loopNames c post body) pre pre' →
      Block.Hoists equivalent [] post post' → Block.Hoists equivalent [] body body' →
      Stmt.Hoists equivalent (.loop pre c post body) (.loop pre' c post' body')
  | block {body body' : Block} :
      Block.Hoists equivalent [] body body' → Stmt.Hoists equivalent (.block body) (.block body')
  | same {s : Stmt} : s.blocks = [] → Stmt.Hoists equivalent s s

/-- Statements, and the statements with the pass run on them, in front of some live
names. -/
inductive Block.Hoists (equivalent : Equivalence) : Names → List Stmt → List Stmt → Prop where
  | nil {live : Names} : Block.Hoists equivalent live [] []
  | cons {live : Names} {s s' : Stmt} {rest front rest' : Block} :
      s.Hoists equivalent s' → s'.hoistOut equivalent rest live = .ok front →
      Block.Hoists equivalent live rest rest' →
      Block.Hoists equivalent live (s :: rest) (front ++ rest')

/-- Cases, and the cases with the pass run on their bodies. -/
inductive Case.Hoists (equivalent : Equivalence) : List Case → List Case → Prop where
  | nil : Case.Hoists equivalent [] []
  | cons (value : Option Literal) {body body' : Block} {cases cases' : List Case} :
      Block.Hoists equivalent [] body body' → Case.Hoists equivalent cases cases' →
      Case.Hoists equivalent (⟨value, body⟩ :: cases) (⟨value, body'⟩ :: cases')

end

mutual

theorem Stmt.hoists_of_eq_ok : (s : Stmt) → {s' : Stmt} → s.hoistWithin equivalent = .ok s' →
    s.Hoists equivalent s'
  | .define name params returns body, _, h => by
      simp only [Stmt.hoistWithin, bind_eq_ok_iff, Except.ok.injEq] at h
      obtain ⟨body', hbody, rfl⟩ := h
      exact .define name params returns (Block.hoists_of_eq_ok body hbody)
  | .branch c body, _, h => by
      simp only [Stmt.hoistWithin, bind_eq_ok_iff, Except.ok.injEq] at h
      obtain ⟨body', hbody, rfl⟩ := h
      exact .branch c (Block.hoists_of_eq_ok body hbody)
  | .switch e cases, _, h => by
      simp only [Stmt.hoistWithin, bind_eq_ok_iff, Except.ok.injEq] at h
      obtain ⟨cases', hcases, rfl⟩ := h
      exact .switch e (Case.hoists_of_eq_ok cases hcases)
  | .loop pre c post body, _, h => by
      simp only [Stmt.hoistWithin, bind_eq_ok_iff, Except.ok.injEq] at h
      obtain ⟨pre', hpre, post', hpost, body', hbody, rfl⟩ := h
      exact .loop c (Block.hoists_of_eq_ok pre hpre) (Block.hoists_of_eq_ok post hpost)
        (Block.hoists_of_eq_ok body hbody)
  | .block body, _, h => by
      simp only [Stmt.hoistWithin, bind_eq_ok_iff, Except.ok.injEq] at h
      obtain ⟨body', hbody, rfl⟩ := h
      exact .block (Block.hoists_of_eq_ok body hbody)
  | .expr _, _, h => by
      cases h
      exact .same rfl
  | .assign .., _, h => by
      cases h
      exact .same rfl
  | .declare .., _, h => by
      cases h
      exact .same rfl
  | .break, _, h => by
      cases h
      exact .same rfl
  | .continue, _, h => by
      cases h
      exact .same rfl
  | .leave, _, h => by
      cases h
      exact .same rfl

/-- What the pass gives stands in the relation to what it was given. -/
theorem Block.hoists_of_eq_ok : (b : List Stmt) → {b' : Block} → {live : Names} →
    Block.hoistBefore equivalent b live = .ok b' → Block.Hoists equivalent live b b'
  | [], _, _, h => by
      cases h
      exact .nil
  | s :: rest, _, _, h => by
      obtain ⟨s', front, rest', hs, hfront, hrest, rfl⟩ := Block.hoistBefore_cons_eq_ok.mp h
      exact .cons (Stmt.hoists_of_eq_ok s hs) hfront (Block.hoists_of_eq_ok rest hrest)

theorem Case.hoists_of_eq_ok : (cases : List Case) → {cases' : List Case} →
    Case.hoistAll equivalent cases = .ok cases' → Case.Hoists equivalent cases cases'
  | [], _, h => by
      cases h
      exact .nil
  | ⟨value, body⟩ :: rest, _, h => by
      simp only [Case.hoistAll, bind_eq_ok_iff, Except.ok.injEq] at h
      obtain ⟨body', hbody, rest', hrest, rfl⟩ := h
      exact .cons value (Block.hoists_of_eq_ok body hbody) (Case.hoists_of_eq_ok rest hrest)

end

/-! ## What is kept around the blocks -/

theorem Stmt.Hoists.defined?_eq {s s' : Stmt} (h : s.Hoists equivalent s') :
    s'.defined? = s.defined? := by
  cases h <;> rfl

/-- The prefix of a switch defines no function. -/
theorem hoistPrefix_functions {live : Names} {scrutinee : Expr} {cases cases' : List Case}
    {hoisted : Block}
    (h : hoistPrefix equivalent live scrutinee cases = .ok (hoisted, cases')) :
    Block.functions hoisted = [] := by
  obtain ⟨-, -, -, -, -, -, -, hmay, -⟩ := hoistPrefix_eq_ok h
  rw [Block.functions, List.filterMap_eq_nil_iff]
  -- A definition of a function may not move.
  intro s hs
  exact (Pinned.allows_iff.mp (hmay.mem hs).1).1

theorem Stmt.functions_hoistOut {after front : Block} {live : Names} {s : Stmt}
    (h : s.hoistOut equivalent after live = .ok front) :
    Block.functions front = Block.functions [s] := by
  rcases Stmt.hoistOut_eq_ok h with ⟨-, rfl⟩ | ⟨e, cases, hoisted, cases', rfl, hhoist, rfl⟩
  · rfl
  · have hhoisted := hoistPrefix_functions hhoist
    rw [Block.functions] at hhoisted
    rw [Block.functions, List.filterMap_append, hhoisted]
    rfl

/-- The pass keeps the functions of a block. -/
theorem Block.Hoists.functions_eq {live : Names} {b b' : Block}
    (h : Block.Hoists equivalent live b b') : Block.functions b' = Block.functions b := by
  induction b generalizing b' with
  | nil =>
      cases h
      rfl
  | cons s rest ih =>
      cases h with
      | cons hs hfront hrest =>
          have hfront := Stmt.functions_hoistOut hfront
          have hrest := ih hrest
          simp only [Block.functions, List.filterMap_append, List.filterMap_cons,
            List.filterMap_nil] at hfront hrest ⊢
          rw [hfront, hrest, hs.defined?_eq]
          cases s.defined? <;> rfl

theorem Block.Hoists.functions_sublist {live : Names} {b b' : Block}
    (h : Block.Hoists equivalent live b b') :
    (Block.functions b').Sublist (Block.functions b) := by
  rw [h.functions_eq]

theorem Case.Hoists.resembles : {cases cases' : List Case} → Case.Hoists equivalent cases cases' →
    List.Forall₂ Case.Resembles cases cases'
  | _, _, .nil => .nil
  | _, _, .cons _ hbody hrest => .cons ⟨rfl, hbody.functions_sublist⟩ hrest.resembles

/-- Dealing with the blocks of a statement changes nothing else. -/
theorem Stmt.Hoists.resembles {s s' : Stmt} (h : s.Hoists equivalent s') : s.Resembles s' := by
  cases h with
  | define name params returns hbody => exact .define name params returns hbody.functions_sublist
  | branch c hbody => exact .branch c hbody.functions_sublist
  | switch e hcases => exact .switch e hcases.resembles
  | loop c hpre hpost hbody =>
      exact .loop c hpre.functions_sublist hpost.functions_sublist hbody.functions_sublist
  | block hbody => exact .block hbody.functions_sublist
  | same => exact .refl s

/-! ## Stable properties -/

section Each

variable {P : Stmt → Prop}

theorem Stmt.Each.hoistOut (hP : Stmt.Stable P) {after front : Block} {live : Names} {s : Stmt}
    (h : s.hoistOut equivalent after live = .ok front) (heach : s.Each P) :
    Block.Each P front := by
  rcases Stmt.hoistOut_eq_ok h with ⟨-, rfl⟩ | ⟨e, cases, hoisted, cases', rfl, hhoist, rfl⟩
  · exact Block.each_cons.mpr ⟨heach, Block.each_nil⟩
  · have hhead := heach.head
    rw [Stmt.each_switch] at heach
    obtain ⟨hhoisted, hcases⟩ := Case.Each.hoistPrefix hP hhoist heach.2
    have hhead' := hP.resembles (.switch e (hoistPrefix_resembles hhoist)) hhead
    exact Block.each_append.mpr ⟨hhoisted,
      Block.each_cons.mpr ⟨Stmt.each_switch.mpr ⟨hhead', hcases⟩, Block.each_nil⟩⟩

mutual

/-- Dealing with the blocks of a statement keeps a stable property. -/
theorem Stmt.Hoists.each (hP : Stmt.Stable P) : {s s' : Stmt} → s.Hoists equivalent s' →
    s.Each P → s'.Each P
  | _, _, .define name params returns hbody, heach => by
      have hhead := hP.resembles (Stmt.Hoists.define name params returns hbody).resembles heach.head
      rw [Stmt.each_define] at heach ⊢
      exact ⟨hhead, hbody.each hP heach.2⟩
  | _, _, .branch c hbody, heach => by
      have hhead := hP.resembles (Stmt.Hoists.branch c hbody).resembles heach.head
      rw [Stmt.each_branch] at heach ⊢
      exact ⟨hhead, hbody.each hP heach.2⟩
  | _, _, .switch e hcases, heach => by
      have hhead := hP.resembles (Stmt.Hoists.switch e hcases).resembles heach.head
      rw [Stmt.each_switch] at heach ⊢
      exact ⟨hhead, hcases.each hP heach.2⟩
  | _, _, .loop c hpre hpost hbody, heach => by
      have hhead := hP.resembles (Stmt.Hoists.loop c hpre hpost hbody).resembles heach.head
      rw [Stmt.each_loop] at heach ⊢
      exact ⟨hhead, hpre.each hP heach.2.1, hpost.each hP heach.2.2.1, hbody.each hP heach.2.2.2⟩
  | _, _, .block hbody, heach => by
      have hhead := hP.resembles (Stmt.Hoists.block hbody).resembles heach.head
      rw [Stmt.each_block] at heach ⊢
      exact ⟨hhead, hbody.each hP heach.2⟩
  | _, _, .same _, heach => heach

/-- The pass keeps a stable property of all statements. -/
theorem Block.Hoists.each (hP : Stmt.Stable P) : {live : Names} → {b b' : List Stmt} →
    Block.Hoists equivalent live b b' → Block.Each P b → Block.Each P b'
  | _, _, _, .nil, _ => Block.each_nil
  | _, _, _, .cons hs hfront hrest, heach => by
      rw [Block.each_cons] at heach
      exact Block.each_append.mpr ⟨(hs.each hP heach.1).hoistOut hP hfront, hrest.each hP heach.2⟩

theorem Case.Hoists.each (hP : Stmt.Stable P) : {cases cases' : List Case} →
    Case.Hoists equivalent cases cases' → Case.Each P cases → Case.Each P cases'
  | _, _, .nil, _ => Case.each_nil
  | _, _, .cons _ hbody hrest, heach => by
      rw [Case.each_cons] at heach ⊢
      exact ⟨hbody.each hP heach.1, hrest.each hP heach.2⟩

end

end Each

/-! ## Passes that end -/

/-- Not a switch without cases. -/
def Stmt.HasCases (s : Stmt) : Prop :=
  ∀ scrutinee, s ≠ .switch scrutinee []

theorem Stmt.exists_hoistOut (h : equivalent.Faithful) (after : Block) (live : Names) {s : Stmt}
    (hs : s.HasCases) : ∃ front, s.hoistOut equivalent after live = .ok front := by
  cases s with
  | switch scrutinee cases =>
      have hcases : cases ≠ [] := fun hnil => hs scrutinee (hnil ▸ rfl)
      obtain ⟨hoisted, cases', hhoist⟩ :=
        exists_hoistPrefix h (Block.freeNames after ++ live) scrutinee hcases
      exact ⟨_, by rw [Stmt.hoistOut, hhoist]; rfl⟩
  | _ => exact ⟨_, rfl⟩

theorem Stmt.Resembles.hasCases {s t : Stmt} (h : s.Resembles t) (hs : s.HasCases) :
    t.HasCases := by
  cases h with
  | refl => exact hs
  | switch e hcases =>
      intro scrutinee heq
      cases heq
      cases hcases
      exact hs e rfl
  | _ => exact fun _ heq => nomatch heq

mutual

theorem Stmt.exists_hoistWithin (h : equivalent.Faithful) : (s : Stmt) →
    s.Each Stmt.HasCases → ∃ s', s.hoistWithin equivalent = .ok s'
  | .define _ _ _ body, heach => by
      rw [Stmt.each_define] at heach
      obtain ⟨body', hbody⟩ := Block.exists_hoistBefore h body [] heach.2
      exact ⟨_, by rw [Stmt.hoistWithin, hbody]; rfl⟩
  | .branch _ body, heach => by
      rw [Stmt.each_branch] at heach
      obtain ⟨body', hbody⟩ := Block.exists_hoistBefore h body [] heach.2
      exact ⟨_, by rw [Stmt.hoistWithin, hbody]; rfl⟩
  | .switch _ cases, heach => by
      rw [Stmt.each_switch] at heach
      obtain ⟨cases', hcases⟩ := Case.exists_hoistAll h cases heach.2
      exact ⟨_, by rw [Stmt.hoistWithin, hcases]; rfl⟩
  | .loop pre c post body, heach => by
      rw [Stmt.each_loop] at heach
      obtain ⟨pre', hpre⟩ := Block.exists_hoistBefore h pre (loopNames c post body) heach.2.1
      obtain ⟨post', hpost⟩ := Block.exists_hoistBefore h post [] heach.2.2.1
      obtain ⟨body', hbody⟩ := Block.exists_hoistBefore h body [] heach.2.2.2
      exact ⟨_, by rw [Stmt.hoistWithin, hpre, hpost, hbody]; rfl⟩
  | .block body, heach => by
      rw [Stmt.each_block] at heach
      obtain ⟨body', hbody⟩ := Block.exists_hoistBefore h body [] heach.2
      exact ⟨_, by rw [Stmt.hoistWithin, hbody]; rfl⟩
  | .expr _, _ => ⟨_, rfl⟩
  | .assign .., _ => ⟨_, rfl⟩
  | .declare .., _ => ⟨_, rfl⟩
  | .break, _ => ⟨_, rfl⟩
  | .continue, _ => ⟨_, rfl⟩
  | .leave, _ => ⟨_, rfl⟩

/-- Without an empty switch the pass ends. -/
theorem Block.exists_hoistBefore (h : equivalent.Faithful) : (b : List Stmt) → (live : Names) →
    Block.Each Stmt.HasCases b → ∃ b', Block.hoistBefore equivalent b live = .ok b'
  | [], _, _ => ⟨[], rfl⟩
  | s :: rest, live, heach => by
      rw [Block.each_cons] at heach
      obtain ⟨s', hs⟩ := Stmt.exists_hoistWithin h s heach.1
      -- A switch still has its cases when their bodies have been dealt with.
      have hcases := (Stmt.hoists_of_eq_ok s hs).resembles.hasCases heach.1.head
      obtain ⟨front, hfront⟩ := Stmt.exists_hoistOut h rest live hcases
      obtain ⟨rest', hrest⟩ := Block.exists_hoistBefore h rest live heach.2
      exact ⟨_, Block.hoistBefore_cons_eq_ok.mpr ⟨s', front, rest', hs, hfront, hrest, rfl⟩⟩

theorem Case.exists_hoistAll (h : equivalent.Faithful) : (cases : List Case) →
    Case.Each Stmt.HasCases cases → ∃ cases', Case.hoistAll equivalent cases = .ok cases'
  | [], _ => ⟨[], rfl⟩
  | ⟨value, body⟩ :: rest, heach => by
      rw [Case.each_cons] at heach
      obtain ⟨body', hbody⟩ := Block.exists_hoistBefore h body [] heach.1
      obtain ⟨rest', hrest⟩ := Case.exists_hoistAll h rest heach.2
      exact ⟨⟨value, body'⟩ :: rest', by rw [Case.hoistAll, hbody, hrest]; rfl⟩

end

end SwitchHoist
