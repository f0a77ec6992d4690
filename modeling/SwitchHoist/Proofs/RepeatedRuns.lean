import Mathlib.Algebra.Ring.Nat
import SwitchHoist.Proofs.AnyEquivalence
import SwitchHoist.Proofs.Settled

/-!
# Runs one after another

A run of the pass may leave something for the next one.  Still the runs come to an end: a statement
that moves comes to stand one block further out and the ones it stands for are gone, so the sum of
the depths of all statements becomes less with every run that changes anything.

That sum is the weight of a block.  The pass is followed with the weights at all depths at once, as
the blocks inside a statement stand one deeper than the statement itself.
-/

namespace SwitchHoist

mutual

/-- The depths of a statement and of all statements inside it added up, where the statement stands
at some depth. -/
def Stmt.weightAt (depth : Nat) : Stmt → Nat
  | .define _ _ _ body => depth + Block.weightAt (depth + 1) body
  | .branch _ body => depth + Block.weightAt (depth + 1) body
  | .switch _ cases => depth + Case.weightAt (depth + 1) cases
  | .loop pre _ post body =>
      depth + (Block.weightAt (depth + 1) pre + Block.weightAt (depth + 1) post
        + Block.weightAt (depth + 1) body)
  | .block body => depth + Block.weightAt (depth + 1) body
  | .expr _ | .assign .. | .declare .. | .break | .continue | .leave => depth

/-- The depths of all statements of a block added up, where its own statements stand at some
depth. -/
def Block.weightAt (depth : Nat) : List Stmt → Nat
  | [] => 0
  | s :: rest => s.weightAt depth + Block.weightAt depth rest

/-- The depths of all statements of some cases added up. -/
def Case.weightAt (depth : Nat) : List Case → Nat
  | [] => 0
  | ⟨_, body⟩ :: rest => Block.weightAt depth body + Case.weightAt depth rest

end

/-- The depths of all statements of a program added up.  Its outermost statements stand at
depth one. -/
def Block.weight (b : Block) : Nat :=
  Block.weightAt 1 b

theorem Block.weightAt_append (depth : Nat) (b c : Block) :
    Block.weightAt depth (b ++ c) = Block.weightAt depth b + Block.weightAt depth c := by
  induction b with
  | nil => simp [Block.weightAt]
  | cons s rest ih => simp [Block.weightAt, ih, Nat.add_assoc]

theorem Case.weightAt_eq_sum (depth : Nat) (cases : List Case) :
    Case.weightAt depth cases = (cases.map fun c => Block.weightAt depth c.body).sum := by
  induction cases with
  | nil => rfl
  | cons c rest ih =>
      obtain ⟨value, body⟩ := c
      rw [Case.weightAt, ih, List.map_cons, List.sum_cons]

theorem Case.length_subtrees (cases : List Case) :
    (Case.subtrees cases).length = (cases.map fun c => (Block.subtrees c.body).length).sum := by
  induction cases with
  | nil => rfl
  | cons c rest ih =>
      obtain ⟨value, body⟩ := c
      rw [Case.subtrees, List.length_append, ih, List.map_cons, List.sum_cons]

/-- A statement weighs at least as much as it stands deep. -/
theorem Stmt.le_weightAt (depth : Nat) (s : Stmt) : depth ≤ s.weightAt depth := by
  cases s <;> simp [Stmt.weightAt]

theorem Block.eq_nil_of_weight {b : Block} (h : b.weight = 0) : b = [] := by
  cases b with
  | nil => rfl
  | cons s rest =>
      have hs := s.le_weightAt 1
      rw [Block.weight, Block.weightAt] at h
      omega

mutual

theorem Stmt.weightAt_succ (depth : Nat) : (s : Stmt) →
    s.weightAt (depth + 1) = s.weightAt depth + s.subtree.length
  | .define _ _ _ body => by
      simp only [Stmt.weightAt, Stmt.subtree, List.length_cons]
      have := Block.weightAt_succ (depth + 1) body
      omega
  | .branch _ body => by
      simp only [Stmt.weightAt, Stmt.subtree, List.length_cons]
      have := Block.weightAt_succ (depth + 1) body
      omega
  | .switch _ cases => by
      simp only [Stmt.weightAt, Stmt.subtree, List.length_cons]
      have := Case.weightAt_succ (depth + 1) cases
      omega
  | .loop pre _ post body => by
      simp only [Stmt.weightAt, Stmt.subtree, List.length_cons, List.length_append]
      have hpre := Block.weightAt_succ (depth + 1) pre
      have hpost := Block.weightAt_succ (depth + 1) post
      have hbody := Block.weightAt_succ (depth + 1) body
      omega
  | .block body => by
      simp only [Stmt.weightAt, Stmt.subtree, List.length_cons]
      have := Block.weightAt_succ (depth + 1) body
      omega
  | .expr _ | .assign .. | .declare .. | .break | .continue | .leave => rfl

/-- One level deeper, every statement adds one to the weight. -/
theorem Block.weightAt_succ (depth : Nat) : (b : List Stmt) →
    Block.weightAt (depth + 1) b = Block.weightAt depth b + (Block.subtrees b).length
  | [] => rfl
  | s :: rest => by
      simp only [Block.weightAt, Block.subtrees, List.length_append]
      have hs := Stmt.weightAt_succ depth s
      have hrest := Block.weightAt_succ depth rest
      omega

theorem Case.weightAt_succ (depth : Nat) : (cases : List Case) →
    Case.weightAt (depth + 1) cases = Case.weightAt depth cases + (Case.subtrees cases).length
  | [] => rfl
  | ⟨_, body⟩ :: rest => by
      simp only [Case.weightAt, Case.subtrees, List.length_append]
      have hbody := Block.weightAt_succ depth body
      have hrest := Case.weightAt_succ depth rest
      omega

end

/-! ## The names of variables weigh nothing -/

mutual

theorem Stmt.weightAt_blanked (depth : Nat) : (s : Stmt) →
    s.blanked.weightAt depth = s.weightAt depth
  | .define _ _ _ body => by
      rw [Stmt.blanked, Stmt.weightAt, Stmt.weightAt, Block.weightAt_blanked _ body]
  | .branch _ body => by
      rw [Stmt.blanked, Stmt.weightAt, Stmt.weightAt, Block.weightAt_blanked _ body]
  | .switch _ cases => by
      rw [Stmt.blanked, Stmt.weightAt, Stmt.weightAt, Case.weightAt_blanked _ cases]
  | .loop pre _ post body => by
      rw [Stmt.blanked, Stmt.weightAt, Stmt.weightAt, Block.weightAt_blanked _ pre,
        Block.weightAt_blanked _ post, Block.weightAt_blanked _ body]
  | .block body => by
      rw [Stmt.blanked, Stmt.weightAt, Stmt.weightAt, Block.weightAt_blanked _ body]
  | .expr _ | .assign .. | .declare .. | .break | .continue | .leave => rfl

theorem Block.weightAt_blanked (depth : Nat) : (b : List Stmt) →
    Block.weightAt depth (Block.blanked b) = Block.weightAt depth b
  | [] => rfl
  | s :: rest => by
      rw [Block.blanked, Block.weightAt, Block.weightAt, Stmt.weightAt_blanked depth s,
        Block.weightAt_blanked depth rest]

theorem Case.weightAt_blanked (depth : Nat) : (cases : List Case) →
    Case.weightAt depth (Case.blanked cases) = Case.weightAt depth cases
  | [] => rfl
  | ⟨_, body⟩ :: rest => by
      rw [Case.blanked, Case.weightAt, Case.weightAt, Block.weightAt_blanked depth body,
        Case.weightAt_blanked depth rest]

end

/-- A size of blocks that adds up and does not see the names of variables. -/
structure Block.IsSize (size : Block → Nat) : Prop where
  append : ∀ b c, size (b ++ c) = size b + size c
  blanked : ∀ b, size (Block.blanked b) = size b

theorem Block.isSize_weightAt (depth : Nat) : Block.IsSize (Block.weightAt depth) where
  append := Block.weightAt_append depth
  blanked := Block.weightAt_blanked depth

theorem Block.isSize_count : Block.IsSize fun b => (Block.subtrees b).length where
  append b c := by rw [Block.subtrees_append, List.length_append]
  blanked b := by
    have hsucc := Block.weightAt_succ 0 b
    have hblanked := Block.weightAt_succ 0 (Block.blanked b)
    rw [Block.weightAt_blanked, Block.weightAt_blanked] at hblanked
    omega

/-! ## One run -/

variable {equivalent : Equivalence}

/-- What is left of a case is no larger than the case. -/
theorem Case.Shortened.size_le {size : Block → Nat} (hsize : Block.IsSize size) {hoisted : Block}
    {c c' : Case} (h : c.Shortened hoisted c') : size c'.body ≤ size c.body := by
  calc size c'.body = size (c.body.drop hoisted.length) := by
        rw [← hsize.blanked c'.body, h.unchanged, hsize.blanked]
    _ ≤ size (c.body.take hoisted.length) + size (c.body.drop hoisted.length) :=
        Nat.le_add_left ..
    _ = size c.body := by rw [← hsize.append, List.take_append_drop]

/-- The prefix and what is left of the cases are together no larger than the cases were. -/
theorem hoistPrefix_size_le {size : Block → Nat} (hsize : Block.IsSize size) {live : Names}
    {scrutinee : Expr} {cases cases' : List Case} {hoisted : Block}
    (h : hoistPrefix equivalent live scrutinee cases = .ok (hoisted, cases')) :
    size hoisted + (cases'.map fun c => size c.body).sum ≤
      (cases.map fun c => size c.body).sum := by
  obtain ⟨first, others, rest, followers, rfl, hfirst, rfl, -, hruns⟩ := hoistPrefix_eq_ok h
  have hothers : ((followers.map Follower.toCase).map fun c => size c.body).sum ≤
      (others.map fun c => size c.body).sum := by
    clear h
    induction hruns with
    | nil => exact Nat.le_refl _
    | cons hrun _ ih =>
        have hcase := hrun.shortened.size_le hsize
        simp only [List.map_cons, List.sum_cons]
        omega
  simp only [List.map_cons, List.sum_cons, hfirst, hsize.append]
  omega

/-- There are no more statements than before, none in a deeper place, and if all are as deep as
before, nothing has changed. -/
structure Lightens {α : Type} (count : α → Nat) (weightAt : Nat → α → Nat) (x y : α) : Prop where
  count_le : count y ≤ count x
  weight_le : ∀ depth, weightAt depth y ≤ weightAt depth x
  eq_of_weight : ∀ depth, weightAt depth y = weightAt depth x → y = x

namespace Lightens

variable {α β : Type} {count : α → Nat} {weightAt : Nat → α → Nat} {count' : β → Nat}
  {weightAt' : Nat → β → Nat}

theorem refl (x : α) : Lightens count weightAt x x where
  count_le := Nat.le_refl _
  weight_le _ := Nat.le_refl _
  eq_of_weight _ _ := rfl

theorem trans {x y z : α} (h : Lightens count weightAt x y) (h' : Lightens count weightAt y z) :
    Lightens count weightAt x z where
  count_le := Nat.le_trans h'.count_le h.count_le
  weight_le depth := Nat.le_trans (h'.weight_le depth) (h.weight_le depth)
  eq_of_weight depth heq := by
    -- The weight between is neither less than the last nor more than the first.
    have hle := h.weight_le depth
    have hle' := h'.weight_le depth
    rw [h'.eq_of_weight depth (by omega), h.eq_of_weight depth (by omega)]

/-- Two parts that become lighter do so together. -/
theorem pair {x y : α} {x' y' : β} (h : Lightens count weightAt x y)
    (h' : Lightens count' weightAt' x' y') :
    Lightens (fun p => count p.1 + count' p.2)
      (fun depth p => weightAt depth p.1 + weightAt' depth p.2) (x, x') (y, y') where
  count_le := Nat.add_le_add h.count_le h'.count_le
  weight_le depth := Nat.add_le_add (h.weight_le depth) (h'.weight_le depth)
  eq_of_weight depth heq := by
    -- Neither part is heavier, so each has the weight that it had.
    have hle := h.weight_le depth
    have hle' := h'.weight_le depth
    dsimp only at heq
    rw [h.eq_of_weight depth (by omega), h'.eq_of_weight depth (by omega)]

/-- What is made of parts that become lighter, and has no other statements, becomes lighter. -/
theorem map {x y : α} (h : Lightens count weightAt x y) (f : α → β)
    (hcount : ∀ x, count' (f x) = count x)
    (hweight : ∀ depth x, weightAt' depth (f x) = weightAt depth x) :
    Lightens count' weightAt' (f x) (f y) where
  count_le := by
    rw [hcount, hcount]
    exact h.count_le
  weight_le depth := by
    rw [hweight, hweight]
    exact h.weight_le depth
  eq_of_weight depth heq := by
    rw [hweight, hweight] at heq
    rw [h.eq_of_weight depth heq]

end Lightens

/-- A statement becomes lighter, or stays what it was. -/
abbrev Stmt.Lightens : Stmt → Stmt → Prop :=
  SwitchHoist.Lightens (fun s => s.subtree.length) Stmt.weightAt

/-- A block becomes lighter, or stays what it was. -/
abbrev Block.Lightens : Block → Block → Prop :=
  SwitchHoist.Lightens (fun b => (Block.subtrees b).length) Block.weightAt

/-- Some cases become lighter, or stay what they were. -/
abbrev Case.Lightens : List Case → List Case → Prop :=
  SwitchHoist.Lightens (fun cases => (Case.subtrees cases).length) Case.weightAt

/-- A block is as large as it is long at least. -/
theorem Block.length_le_subtrees (b : Block) : b.length ≤ (Block.subtrees b).length := by
  induction b with
  | nil => exact Nat.le_refl _
  | cons s rest ih =>
      have hs : 0 < s.subtree.length := List.length_pos_of_mem s.mem_subtree_self
      rw [Block.subtrees, List.length_append, List.length_cons]
      omega

/-- A switch that gives up a prefix becomes lighter, as the prefix comes to stand one block further
out. -/
theorem Stmt.lightens_hoistOut {after front : Block} {live : Names} {s : Stmt}
    (h : s.hoistOut equivalent after live = .ok front) : Block.Lightens [s] front := by
  rcases Stmt.hoistOut_eq_ok h with ⟨-, rfl⟩ | ⟨e, cases, hoisted, cases', rfl, hhoist, rfl⟩
  · exact .refl _
  have hweight : ∀ depth, Block.weightAt depth (hoisted ++ [.switch e cases']) +
      (Block.subtrees hoisted).length ≤ Block.weightAt depth [.switch e cases] := by
    intro depth
    have hdeeper := hoistPrefix_size_le (Block.isSize_weightAt (depth + 1)) hhoist
    rw [← Case.weightAt_eq_sum, ← Case.weightAt_eq_sum, Block.weightAt_succ] at hdeeper
    rw [Block.weightAt_append]
    simp only [Block.weightAt, Stmt.weightAt]
    omega
  refine ⟨?_, fun depth => Nat.le_of_add_right_le (hweight depth), fun depth heq => ?_⟩
  · have hcount := hoistPrefix_size_le Block.isSize_count hhoist
    rw [← Case.length_subtrees, ← Case.length_subtrees] at hcount
    simp only [Block.subtrees_append, Block.subtrees, Stmt.subtree, List.length_append,
      List.length_cons, List.length_nil]
    omega
  · have hcount := hweight depth
    have hlength := Block.length_le_subtrees hoisted
    obtain rfl : hoisted = [] := List.eq_nil_of_length_eq_zero (by omega)
    rw [hoistPrefix_cases_eq hhoist]
    rfl

/-- A statement becomes lighter with what it has inside, one block deeper. -/
theorem Lightens.inside {α : Type} {count : α → Nat} {weightAt : Nat → α → Nat} {x y : α}
    (h : Lightens count weightAt x y) (f : α → Stmt)
    (hcount : ∀ x, (f x).subtree.length = count x + 1)
    (hweight : ∀ depth x, (f x).weightAt depth = depth + weightAt (depth + 1) x) :
    (f x).Lightens (f y) where
  count_le := by
    rw [hcount, hcount]
    exact Nat.succ_le_succ h.count_le
  weight_le depth := by
    rw [hweight, hweight]
    exact Nat.add_le_add_left (h.weight_le (depth + 1)) depth
  eq_of_weight depth heq := by
    rw [hweight, hweight, Nat.add_left_cancel_iff] at heq
    rw [h.eq_of_weight (depth + 1) heq]

/-- A statement becomes lighter in its place, and what it gives up after that. -/
theorem Stmt.Lightens.hoistOut {s s' : Stmt} {after front : Block} {live : Names}
    (h : s.Lightens s') (hfront : s'.hoistOut equivalent after live = .ok front) :
    Block.Lightens [s] front := by
  have hsingle : Block.Lightens [s] [s'] := h.map (fun s => [s])
    (fun s => by simp [Block.subtrees]) fun depth s => by simp [Block.weightAt]
  exact hsingle.trans (Stmt.lightens_hoistOut hfront)

mutual

theorem Stmt.Hoists.lightens : {s s' : Stmt} → s.Hoists equivalent s' → s.Lightens s'
  | _, _, .define name params returns hbody =>
      hbody.lightens.inside (.define name params returns) (fun _ => rfl) fun _ _ => rfl
  | _, _, .branch c hbody =>
      hbody.lightens.inside (.branch c) (fun _ => rfl) fun _ _ => rfl
  | _, _, .switch e hcases =>
      hcases.lightens.inside (.switch e) (fun _ => rfl) fun _ _ => rfl
  | _, _, .loop c hpre hpost hbody =>
      ((hpre.lightens.pair hpost.lightens).pair hbody.lightens).inside
        (fun p => .loop p.1.1 c p.1.2 p.2) (fun _ => by simp [Stmt.subtree, Nat.add_assoc])
        fun _ _ => rfl
  | _, _, .block hbody =>
      hbody.lightens.inside .block (fun _ => rfl) fun _ _ => rfl
  | _, _, .same _ => .refl _

/-- The pass makes a block lighter, or leaves it as it is. -/
theorem Block.Hoists.lightens : {live : Names} → {b b' : List Stmt} →
    Block.Hoists equivalent live b b' → Block.Lightens b b'
  | _, _, _, .nil => .refl _
  | _, _, _, .cons hs hfront hrest =>
      ((hs.lightens.hoistOut hfront).pair hrest.lightens).map (fun p => p.1 ++ p.2)
        (fun p => by rw [Block.subtrees_append, List.length_append])
        fun depth p => Block.weightAt_append depth p.1 p.2

theorem Case.Hoists.lightens : {cases cases' : List Case} → Case.Hoists equivalent cases cases' →
    Case.Lightens cases cases'
  | _, _, .nil => .refl _
  | _, _, .cons value hbody hrest =>
      (hbody.lightens.pair hrest.lightens).map (fun p => ⟨value, p.1⟩ :: p.2)
        (fun _ => List.length_append) fun _ _ => rfl

end

/-! ## Many runs -/

/-- The program behind some runs of the pass, one after another. -/
def Block.hoistTimes (equivalent : Equivalence) : Nat → Block → Except Fault Block
  | 0, b => .ok b
  | n + 1, b => do
      let b ← b.hoist equivalent
      Block.hoistTimes equivalent n b

theorem Block.hoistTimes_add (m n : Nat) (b : Block) :
    Block.hoistTimes equivalent (m + n) b =
      Block.hoistTimes equivalent m b >>= Block.hoistTimes equivalent n := by
  induction m generalizing b with
  | zero => rw [Nat.zero_add, Block.hoistTimes]; rfl
  | succ m ih =>
      rw [Nat.succ_add, Block.hoistTimes, Block.hoistTimes]
      cases b.hoist equivalent with
      | error fault => rfl
      | ok b' => exact ih b'

/-- A program that one run leaves alone is left alone by any number of runs. -/
theorem Block.hoistTimes_of_fixed {b : Block} (h : b.hoist equivalent = .ok b) (n : Nat) :
    Block.hoistTimes equivalent n b = .ok b := by
  induction n with
  | zero => rfl
  | succ n ih =>
      rw [Block.hoistTimes, h]
      exact ih

/-- After as many runs as a program weighs, a run changes nothing. -/
theorem Block.fixed_of_hoistTimes {n : Nat} : {b c : Block} → b.weight ≤ n →
    Block.hoistTimes equivalent n b = .ok c → c.hoist equivalent = .ok c := by
  induction n with
  | zero =>
      intro b c hn h
      obtain rfl := Block.eq_nil_of_weight (Nat.le_zero.mp hn)
      cases h
      rfl
  | succ n ih =>
      intro b c hn h
      obtain ⟨b', hb, hrest⟩ := bind_eq_ok_iff.mp h
      have hlighter := (Block.hoists_of_eq_ok b hb).lightens
      rcases Nat.lt_or_eq_of_le (hlighter.weight_le 1) with hless | heq
      · exact ih (Nat.le_of_lt_succ (Nat.lt_of_lt_of_le hless hn)) hrest
      · -- The run has changed nothing, and neither have those behind it.
        obtain rfl := hlighter.eq_of_weight 1 heq
        rw [Block.hoistTimes_of_fixed hb] at hrest
        cases hrest
        exact hb

/-- A run leaves no more statements than there were, and makes a program lighter unless it leaves
it as it is.  So runs one after another come to an end: after as many runs as the program weighs,
if none of them is at fault, every further run gives the same program again. -/
theorem Block.hoist_lightens (equivalent : Equivalence) (b : Block) :
    (∀ b', b.hoist equivalent = .ok b' →
      (Block.subtrees b').length ≤ (Block.subtrees b).length ∧
        (b' = b ∨ b'.weight < b.weight)) ∧
    ∀ c, Block.hoistTimes equivalent b.weight b = .ok c →
      c.hoist equivalent = .ok c ∧
        ∀ n, b.weight ≤ n → Block.hoistTimes equivalent n b = .ok c := by
  constructor
  · intro b' hb
    have hlighter := (Block.hoists_of_eq_ok b hb).lightens
    exact ⟨hlighter.count_le,
      (Nat.lt_or_eq_of_le (hlighter.weight_le 1)).symm.imp_left (hlighter.eq_of_weight 1)⟩
  · intro c hc
    have hfixed := Block.fixed_of_hoistTimes (Nat.le_refl _) hc
    refine ⟨hfixed, fun n hn => ?_⟩
    obtain ⟨k, rfl⟩ := Nat.exists_eq_add_of_le hn
    rw [Block.hoistTimes_add, hc]
    exact Block.hoistTimes_of_fixed hfixed k

end SwitchHoist
