import SwitchHoist.Proofs.AlignedMatching
import SwitchHoist.Proofs.ScopesRestored

/-!
# The frames behind a statement

The walk, the renaming and the alignment of a statement open frames for everything inside it and
close them again.  Behind the statement there are as many frames as in front of it, those below
the innermost one are the same, and the innermost one has grown by the declared names.

An alignment keeps two stacks of frames.  On both of them the declared names are new entries, and
the entries of two corresponding names have the same number.  No number is given out twice, so
none of them was in use before.
-/

namespace SwitchHoist

namespace Numbering

/-- New entries in the innermost frame, the last one in front. -/
def extend (entries : List (String × Nat)) : Numbering → Numbering
  | [] => []
  | frame :: outer => (entries.reverse ++ frame) :: outer

@[simp] theorem extend_nil (scopes : Numbering) : extend [] scopes = scopes := by
  cases scopes <;> rfl

theorem extend_append (entries entries' : List (String × Nat)) (scopes : Numbering) :
    extend (entries ++ entries') scopes = extend entries' (extend entries scopes) := by
  cases scopes <;> simp [extend]

theorem extend_singleton (x : String) (n : Nat) (scopes : Numbering) :
    extend [(x, n)] scopes = scopes.bind x n := by
  cases scopes <;> rfl

@[simp] theorem length_extend (entries : List (String × Nat)) (scopes : Numbering) :
    (extend entries scopes).length = scopes.length := by
  cases scopes <;> rfl

/-- A number that no entry has. -/
def Unused (n : Nat) (scopes : Numbering) : Prop :=
  ∀ frame ∈ scopes, ∀ entry ∈ frame, entry.2 ≠ n

theorem Below.unused {n m : Nat} {scopes : Numbering} (h : Below n scopes) (hm : n ≤ m) :
    Unused m scopes :=
  fun frame hframe entry hentry => Nat.ne_of_lt (Nat.lt_of_lt_of_le (h frame hframe entry hentry) hm)

theorem Below.extend {n m : Nat} {scopes : Numbering} (h : Below n scopes) (hnm : n ≤ m)
    {xs : List String} {ns : List Nat} (hns : ∀ k ∈ ns, k < m) :
    Below m (extend (xs.zip ns) scopes) := by
  cases scopes with
  | nil => exact fun _ hframe => nomatch hframe
  | cons frame outer =>
      obtain ⟨hframe, houter⟩ := List.forall_mem_cons.mp (h.mono hnm)
      refine List.forall_mem_cons.mpr ⟨List.forall_mem_append.mpr ⟨fun entry hentry => ?_, hframe⟩,
        houter⟩
      exact hns _ (List.of_mem_zip (List.mem_reverse.mp hentry)).2

end Numbering

namespace Bindings

/-- Behind code that declares `xs` on the left and `ys` on the right, both innermost frames have
these names as new entries, with one new number for each pair of names. -/
structure Extends (b b' : Bindings) (xs ys : List String) (ns : List Nat) : Prop where
  left : b'.left = b.left.extend (xs.zip ns)
  right : b'.right = b.right.extend (ys.zip ns)
  length_left : xs.length = ns.length
  length_right : ys.length = ns.length
  increasing : ns.Pairwise (· < ·)
  fresh : ∀ n ∈ ns, b.next ≤ n ∧ n < b'.next
  next_le : b.next ≤ b'.next

namespace Extends

variable {b c d : Bindings} {xs ys xs' ys' : List String} {ns ns' : List Nat}

theorem refl (b : Bindings) : b.Extends b [] [] [] where
  left := (Numbering.extend_nil b.left).symm
  right := (Numbering.extend_nil b.right).symm
  length_left := rfl
  length_right := rfl
  increasing := .nil
  fresh := nofun
  next_le := Nat.le_refl _

theorem bind (b : Bindings) (x y : String) : b.Extends (b.bind x y) [x] [y] [b.next] where
  left := (Numbering.extend_singleton x b.next b.left).symm
  right := (Numbering.extend_singleton y b.next b.right).symm
  length_left := rfl
  length_right := rfl
  increasing := List.pairwise_singleton ..
  fresh := List.forall_mem_singleton.mpr ⟨Nat.le_refl _, Nat.lt_succ_self _⟩
  next_le := Nat.le_succ _

theorem trans (h : b.Extends c xs ys ns) (h' : c.Extends d xs' ys' ns') :
    b.Extends d (xs ++ xs') (ys ++ ys') (ns ++ ns') where
  left := by rw [h'.left, h.left, List.zip_append h.length_left, Numbering.extend_append]
  right := by rw [h'.right, h.right, List.zip_append h.length_right, Numbering.extend_append]
  length_left := by rw [List.length_append, List.length_append, h.length_left, h'.length_left]
  length_right := by rw [List.length_append, List.length_append, h.length_right, h'.length_right]
  increasing := List.pairwise_append.mpr ⟨h.increasing, h'.increasing, fun n hn m hm =>
    Nat.lt_of_lt_of_le (h.fresh n hn).2 (h'.fresh m hm).1⟩
  fresh := List.forall_mem_append.mpr
    ⟨fun n hn => ⟨(h.fresh n hn).1, Nat.lt_of_lt_of_le (h.fresh n hn).2 h'.next_le⟩,
      fun n hn => ⟨Nat.le_trans h.next_le (h'.fresh n hn).1, (h'.fresh n hn).2⟩⟩
  next_le := Nat.le_trans h.next_le h'.next_le

/-- Of code in frames of its own nothing is left but the numbers that have been given out. -/
theorem pop (h : b.push.Extends c xs ys ns) : b.Extends c.pop [] [] [] where
  left := by
    rw [List.zip_nil_left, Numbering.extend_nil]
    exact congrArg List.tail h.left
  right := by
    rw [List.zip_nil_left, Numbering.extend_nil]
    exact congrArg List.tail h.right
  length_left := rfl
  length_right := rfl
  increasing := .nil
  fresh := nofun
  next_le := h.next_le

theorem length_eq (h : b.Extends c xs ys ns) (hb : b.left.length = b.right.length) :
    c.left.length = c.right.length := by
  rw [h.left, h.right, Numbering.length_extend, Numbering.length_extend, hb]

theorem isOpen (h : b.Extends c xs ys ns) (hb : b.Open) : c.Open where
  left_ne_nil := by
    rw [← List.length_pos_iff, h.left, Numbering.length_extend]
    exact List.length_pos_of_ne_nil hb.left_ne_nil
  right_ne_nil := by
    rw [← List.length_pos_iff, h.right, Numbering.length_extend]
    exact List.length_pos_of_ne_nil hb.right_ne_nil
  left_below := h.left ▸ hb.left_below.extend h.next_le fun n hn => (h.fresh n hn).2
  right_below := h.right ▸ hb.right_below.extend h.next_le fun n hn => (h.fresh n hn).2

end Extends

theorem declare_extends : (vars vars' : List TypedName) → {b b' : Bindings} →
    declare vars vars' b = some b' →
    ∃ ns, b.Extends b' (TypedName.names vars) (TypedName.names vars') ns
  | [], [], b, b', h => by
      rw [declare, Option.some_inj] at h
      subst h
      exact ⟨[], .refl b⟩
  | x :: xs, y :: ys, b, b', h => by
      rw [declare] at h
      split at h
      · obtain ⟨ns, hns⟩ := declare_extends xs ys h
        exact ⟨b.next :: ns, (Extends.bind b x.name y.name).trans hns⟩
      · cases h
  | [], _ :: _, _, _, h => by simp [declare] at h
  | _ :: _, [], _, _, h => by simp [declare] at h

end Bindings

mutual

/-- Behind aligned statements, both innermost frames have grown by the declared names. -/
theorem Stmt.Aligns.extends : {s t : Stmt} → {b b' : Bindings} → s.Aligns t b b' →
    ∃ ns, b.Extends b' s.declared t.declared ns
  | _, _, b, _, .expr _ => ⟨[], .refl b⟩
  | _, _, b, _, .assign _ _ => ⟨[], .refl b⟩
  | _, _, _, _, .declare _ hdeclare => Bindings.declare_extends _ _ hdeclare
  | _, _, _, _, .define _ hps hrs hbody => by
      obtain ⟨_, hps⟩ := Bindings.declare_extends _ _ hps
      obtain ⟨_, hrs⟩ := Bindings.declare_extends _ _ hrs
      obtain ⟨_, hbody⟩ := hbody.extends
      -- The names of the head stand in a frame around that of the body.
      exact ⟨[], ((hps.trans hrs).trans hbody.pop).pop⟩
  | _, _, _, _, .branch _ hbody => by
      obtain ⟨_, hbody⟩ := hbody.extends
      exact ⟨[], hbody.pop⟩
  | _, _, _, _, .switch _ hcases => ⟨[], hcases.extends⟩
  | _, _, _, _, .loop hpre _ hpost hbody => by
      obtain ⟨_, hpre⟩ := hpre.extends
      obtain ⟨_, hpost⟩ := hpost.extends
      obtain ⟨_, hbody⟩ := hbody.extends
      -- The frame of the first block stays open until the end of the loop.
      exact ⟨[], ((hpre.trans hpost.pop).trans hbody.pop).pop⟩
  | _, _, b, _, .break => ⟨[], .refl b⟩
  | _, _, b, _, .continue => ⟨[], .refl b⟩
  | _, _, b, _, .leave => ⟨[], .refl b⟩
  | _, _, _, _, .block hbody => by
      obtain ⟨_, hbody⟩ := hbody.extends
      exact ⟨[], hbody.pop⟩

theorem Block.Aligns.extends : {c d : List Stmt} → {b b' : Bindings} → Block.Aligns c d b b' →
    ∃ ns, b.Extends b' (Block.declared c) (Block.declared d) ns
  | _, _, b, _, .nil => ⟨[], .refl b⟩
  | _, _, _, _, .cons hs hrest => by
      obtain ⟨_, hs⟩ := hs.extends
      obtain ⟨_, hrest⟩ := hrest.extends
      exact ⟨_, hs.trans hrest⟩

theorem Case.Aligns.extends : {cs ds : List Case} → {b b' : Bindings} → Case.Aligns cs ds b b' →
    b.Extends b' [] [] []
  | _, _, b, _, .nil => .refl b
  | _, _, _, _, .cons _ hbody hrest => by
      obtain ⟨_, hbody⟩ := hbody.extends
      exact hbody.pop.trans hrest.extends

end

/-- Behind a statement, the frames of a walk and of a renaming are those in front of it, but that
the innermost one has the declared names as well, of which a renaming records those that it maps.
The frames of an alignment have as new entries the names that the two statements declare, and
corresponding names have the same number.  If the numbers in use were below the next one, no entry
had one of these before. -/
theorem Stmt.frames_restored (s t : Stmt) :
    (∀ frame outer, (s.walk ⟨frame :: outer⟩).2 = ⟨(s.declared.reverse ++ frame) :: outer⟩) ∧
      (∀ ρ : Renaming, ∀ frame outer, (s.rename ρ ⟨frame :: outer⟩).2 =
        ⟨((s.declared.filter ρ.maps).reverse ++ frame) :: outer⟩) ∧
      ∀ b b' : Bindings, s.align t b = some b' →
        ∃ ns, b.Extends b' s.declared t.declared ns ∧
          (b.left.length = b.right.length → b'.left.length = b'.right.length) ∧
          (b.Open → b'.Open ∧ ∀ n ∈ ns, b.left.Unused n ∧ b.right.Unused n) := by
  refine ⟨fun frame outer => ?_, fun ρ frame outer => ?_, fun b b' h => ?_⟩
  · rw [Stmt.walk_snd, Scopes.bindAll_frame]
  · rw [Stmt.rename_snd, Scopes.bindAll_frame]
  · obtain ⟨ns, hns⟩ := (Stmt.align_eq_some_iff.mp h).extends
    refine ⟨ns, hns, hns.length_eq, fun hb => ⟨hns.isOpen hb, fun n hn => ?_⟩⟩
    exact ⟨hb.left_below.unused (hns.fresh n hn).1, hb.right_below.unused (hns.fresh n hn).1⟩

/-- Two scopes on each side, with a name in each of them. -/
def scopedPair : Bindings :=
  ((Bindings.initial.bind "x" "u").push).bind "y" "v"

/-- `let a, b := f(x)` against `let c, d := f(u)`, where `x` and `u` stand for each other. -/
theorem scopedPair_frames_restored :
    let after : Bindings := ⟨[[("b", 3), ("a", 2), ("y", 1)], [("x", 0)]],
      [[("d", 3), ("c", 2), ("v", 1)], [("u", 0)]], 4⟩
    scopedPair.Open ∧
      Stmt.align (.declareUntyped ["a", "b"] (some (.call "f" [.variable "x"])))
        (.declareUntyped ["c", "d"] (some (.call "f" [.variable "u"]))) scopedPair = some after ∧
      ∃ ns, scopedPair.Extends after ["a", "b"] ["c", "d"] ns ∧
        after.left.length = after.right.length ∧ after.Open ∧
        ∀ n ∈ ns, scopedPair.left.Unused n ∧ scopedPair.right.Unused n := by
  have hopen : scopedPair.Open := ((Bindings.open_initial.bind "x" "u").push).bind "y" "v"
  have halign : Stmt.align (.declareUntyped ["a", "b"] (some (.call "f" [.variable "x"])))
      (.declareUntyped ["c", "d"] (some (.call "f" [.variable "u"]))) scopedPair =
        some ⟨[[("b", 3), ("a", 2), ("y", 1)], [("x", 0)]],
          [[("d", 3), ("c", 2), ("v", 1)], [("u", 0)]], 4⟩ := by
    decide
  obtain ⟨ns, hextends, hlength, hnew⟩ := (Stmt.frames_restored _ _).2.2 scopedPair _ halign
  exact ⟨hopen, halign, ns, hextends, hlength rfl, hnew hopen⟩

end SwitchHoist
