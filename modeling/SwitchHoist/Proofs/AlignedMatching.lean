import SwitchHoist.Alignment
import SwitchHoist.Proofs.Matching

/-!
# Aligned statements are matching statements

An alignment numbers the declarations on both sides and compares numbers.  The
numbers only serve to say which variables stand for each other: as long as the
next number is unused, a pair of declarations changes the agreement of names just
as it changes a matching.  So two statements are aligned exactly when they match,
and equality up to declared names is matching under equality of names.

What an alignment does is read off once, as the relation `Stmt.Aligns`.  Whatever else is
said of alignments is shown by induction on it.
-/

namespace SwitchHoist

namespace Numbering

theorem resolve_cons (frame : List (String × Nat)) (outer : Numbering) (x : String) :
    resolve (frame :: outer) x = (List.lookup x frame).or (resolve outer x) := by
  simp only [resolve, List.findSome?_cons]
  cases List.lookup x frame <;> rfl

@[simp] theorem resolve_push (scopes : Numbering) (x : String) :
    resolve ([] :: scopes) x = resolve scopes x := by
  simp [resolve_cons]

theorem resolve_bind {scopes : Numbering} (h : scopes ≠ []) (x y : String) (n : Nat) :
    (scopes.bind x n).resolve y = if y = x then some n else scopes.resolve y := by
  cases scopes with
  | nil => exact absurd rfl h
  | cons frame outer =>
      rw [bind, resolve_cons, resolve_cons, List.lookup_cons]
      by_cases hyx : y = x
      · simp [hyx]
      · have hbeq : (y == x) = false := by simp [hyx]
        simp [hbeq, hyx]

/-- All numbers in some scopes are below a bound. -/
def Below (n : Nat) (scopes : Numbering) : Prop :=
  ∀ frame ∈ scopes, ∀ p ∈ frame, p.2 < n

theorem Below.mono {m n : Nat} {scopes : Numbering} (h : Below m scopes) (hmn : m ≤ n) :
    Below n scopes :=
  fun frame hframe p hp => Nat.lt_of_lt_of_le (h frame hframe p hp) hmn

theorem Below.push {n : Nat} {scopes : Numbering} (h : Below n scopes) : Below n ([] :: scopes) := by
  intro frame hframe p hp
  rcases List.mem_cons.mp hframe with rfl | hframe
  · simp at hp
  · exact h frame hframe p hp

theorem Below.bind {n : Nat} {scopes : Numbering} (h : Below n scopes) (x : String) :
    Below (n + 1) (scopes.bind x n) := by
  cases scopes with
  | nil => simp [Below, Numbering.bind]
  | cons frame outer =>
      intro frame' hframe' p hp
      rcases List.mem_cons.mp hframe' with rfl | houter
      · rcases List.mem_cons.mp hp with rfl | hp
        · exact Nat.lt_succ_self n
        · exact Nat.lt_succ_of_lt (h frame (List.mem_cons_self ..) p hp)
      · exact Nat.lt_succ_of_lt (h frame' (List.mem_cons_of_mem _ houter) p hp)

theorem Below.resolve_lt {n m : Nat} {scopes : Numbering} {x : String} (h : Below n scopes)
    (hx : scopes.resolve x = some m) : m < n := by
  obtain ⟨frame, hframe, hlookup⟩ := List.exists_of_findSome?_eq_some hx
  obtain ⟨l, r, rfl, -⟩ := List.lookup_eq_some_iff.mp hlookup
  exact h _ hframe (x, m) (by simp)

@[simp] theorem tail_bind (scopes : Numbering) (x : String) (n : Nat) :
    (scopes.bind x n).tail = scopes.tail := by
  cases scopes <;> rfl

theorem bind_ne_nil {scopes : Numbering} (h : scopes ≠ []) (x : String) (n : Nat) :
    scopes.bind x n ≠ [] := by
  cases scopes with
  | nil => exact absurd rfl h
  | cons frame outer => exact List.cons_ne_nil _ _

end Numbering

namespace Bindings

/-- Which names agree behind the declarations met so far. -/
def matching (b : Bindings) : Matching :=
  fun x y => b.agree x y = true

/-- There is an open scope on both sides, and the next number is unused. -/
structure Open (b : Bindings) : Prop where
  left_ne_nil : b.left ≠ []
  right_ne_nil : b.right ≠ []
  left_below : b.left.Below b.next
  right_below : b.right.Below b.next

theorem open_initial : initial.Open where
  left_ne_nil := List.cons_ne_nil _ _
  right_ne_nil := List.cons_ne_nil _ _
  left_below := by simp [Numbering.Below, initial]
  right_below := by simp [Numbering.Below, initial]

theorem Open.push {b : Bindings} (h : b.Open) : b.push.Open where
  left_ne_nil := List.cons_ne_nil _ _
  right_ne_nil := List.cons_ne_nil _ _
  left_below := h.left_below.push
  right_below := h.right_below.push

theorem Open.bind {b : Bindings} (h : b.Open) (x y : String) : (b.bind x y).Open where
  left_ne_nil := Numbering.bind_ne_nil h.left_ne_nil x b.next
  right_ne_nil := Numbering.bind_ne_nil h.right_ne_nil y b.next
  left_below := h.left_below.bind x
  right_below := h.right_below.bind y

@[simp] theorem matching_initial : initial.matching = Eq := by
  funext x y
  simp [matching, agree, initial, Numbering.resolve]

@[simp] theorem matching_push (b : Bindings) : b.push.matching = b.matching := by
  funext x y
  simp [matching, agree, push]

/-- Names agree if they have the same number, or no number and the same spelling. -/
theorem matching_iff (b : Bindings) (x y : String) :
    b.matching x y ↔ b.left.resolve x = b.right.resolve y ∧ (b.left.resolve x = none → x = y) := by
  unfold matching agree
  cases b.left.resolve x <;> cases b.right.resolve y <;> simp

/-- A pair of declarations changes the agreement of names as it changes a matching:
its number occurs nowhere else. -/
theorem matching_bind {b : Bindings} (h : b.Open) (x y : String) :
    (b.bind x y).matching = b.matching.bind x y := by
  funext a c
  have hleft : ∀ n, b.left.resolve a = some n → n ≠ b.next := fun n hn =>
    Nat.ne_of_lt (h.left_below.resolve_lt hn)
  have hright : ∀ n, b.right.resolve c = some n → n ≠ b.next := fun n hn =>
    Nat.ne_of_lt (h.right_below.resolve_lt hn)
  rw [Matching.bind, matching_iff, matching_iff, Bindings.bind]
  simp only [Numbering.resolve_bind h.left_ne_nil, Numbering.resolve_bind h.right_ne_nil]
  -- If only one of the two names is the declared one, its number is the unused one, which
  -- the other name cannot have.
  by_cases ha : a = x <;> by_cases hc : c = y
  · simp [ha, hc]
  · have hnext : b.right.resolve c ≠ some b.next := fun hn => hright _ hn rfl
    simp [ha, hc, hnext.symm]
  · have hnext : b.left.resolve a ≠ some b.next := fun hn => hleft _ hn rfl
    simp [ha, hc, hnext]
  · simp [ha, hc]

/-- The bindings behind a piece of code: they have an open scope, they say of names
what the matching says, and of the scopes only the innermost has changed. -/
structure Leads (b b' : Bindings) (M : Matching) : Prop where
  isOpen : b'.Open
  matching_eq : b'.matching = M
  left_tail : b'.left.tail = b.left.tail
  right_tail : b'.right.tail = b.right.tail
  next_le : b.next ≤ b'.next

theorem Leads.refl {b : Bindings} (h : b.Open) : b.Leads b b.matching :=
  ⟨h, rfl, rfl, rfl, Nat.le_refl _⟩

theorem Leads.trans {b c d : Bindings} {M N : Matching} (h : b.Leads c M) (h' : c.Leads d N) :
    b.Leads d N :=
  ⟨h'.isOpen, h'.matching_eq, h'.left_tail.trans h.left_tail, h'.right_tail.trans h.right_tail,
    Nat.le_trans h.next_le h'.next_le⟩

theorem Leads.bind {b : Bindings} (h : b.Open) (x y : String) :
    b.Leads (b.bind x y) (b.matching.bind x y) :=
  ⟨h.bind x y, matching_bind h x y, Numbering.tail_bind _ _ _, Numbering.tail_bind _ _ _,
    Nat.le_succ _⟩

/-- Code in a scope of its own changes nothing but the next number. -/
theorem Leads.pop {b b' : Bindings} {M : Matching} (hb : b.Open) (h : b.push.Leads b' M) :
    b.Leads b'.pop b.matching := by
  -- What the code bound stood in the scopes that are closed here.
  have hpop : b'.pop = ⟨b.left, b.right, b'.next⟩ := by
    rw [Bindings.pop, h.left_tail, h.right_tail]
    rfl
  have hnext : b.next ≤ b'.next := h.next_le
  rw [hpop]
  exact ⟨⟨hb.left_ne_nil, hb.right_ne_nil, hb.left_below.mono hnext, hb.right_below.mono hnext⟩,
    rfl, rfl, rfl, hnext⟩

/-- Declared names are bound one after another if their types agree. -/
theorem declare_eq_some : (vars vars' : List TypedName) → {b b' : Bindings} → b.Open →
    declare vars vars' b = some b' →
    TypedName.types vars = TypedName.types vars' ∧
      b.Leads b' (b.matching.bindAll (TypedName.names vars) (TypedName.names vars'))
  | [], [], b, b', hb, h => by
      rw [declare, Option.some_inj] at h
      subst h
      exact ⟨rfl, Leads.refl hb⟩
  | x :: xs, y :: ys, b, b', hb, h => by
      rw [declare] at h
      split at h
      · next htyp =>
          obtain ⟨htypes, hleads⟩ := declare_eq_some xs ys (hb.bind x.name y.name) h
          rw [matching_bind hb] at hleads
          refine ⟨?_, (Leads.bind hb x.name y.name).trans hleads⟩
          simpa [TypedName.types, htyp] using htypes
      · contradiction
  | [], _ :: _, _, _, _, h => by simp [declare] at h
  | _ :: _, [], _, _, _, h => by simp [declare] at h

theorem declare_isSome : (vars vars' : List TypedName) → (b : Bindings) →
    TypedName.types vars = TypedName.types vars' → ∃ b', declare vars vars' b = some b'
  | [], [], b, _ => ⟨b, rfl⟩
  | x :: xs, y :: ys, b, h => by
      simp only [TypedName.types, List.map_cons, List.cons.injEq] at h
      rw [declare, if_pos h.1]
      exact declare_isSome xs ys _ h.2
  | [], _ :: _, _, h => by simp [TypedName.types] at h
  | _ :: _, [], _, h => by simp [TypedName.types] at h

theorem agreeAll_iff (b : Bindings) : (xs ys : List String) →
    (b.agreeAll xs ys = true ↔ List.Forall₂ b.matching xs ys)
  | [], [] => by simp [agreeAll]
  | x :: xs, y :: ys => by simp [agreeAll, agreeAll_iff b xs ys, matching]
  | [], _ :: _ => by simp [agreeAll]
  | _ :: _, [] => by simp [agreeAll]

end Bindings

mutual

/-- Expressions are aligned exactly when they match. -/
theorem Expr.aligned_iff (b : Bindings) : (e f : Expr) →
    (e.aligned b f = true ↔ e.Matches b.matching f)
  | .literal l, f => by
      cases f with
      | literal m =>
          rw [Expr.aligned, beq_iff_eq]
          constructor
          · rintro rfl
            exact .literal l
          · rintro ⟨⟩
            rfl
      | _ => exact ⟨fun h => by simp [Expr.aligned] at h, nofun⟩
  | .variable x, f => by
      cases f with
      | «variable» y =>
          rw [Expr.aligned]
          exact ⟨fun h => .variable h, fun | .variable h => h⟩
      | _ => exact ⟨fun h => by simp [Expr.aligned] at h, nofun⟩
  | .call g args, f => by
      cases f with
      | call g' args' =>
          rw [Expr.aligned, Bool.and_eq_true, beq_iff_eq, Expr.alignedList_iff b args args']
          constructor
          · rintro ⟨rfl, hargs⟩
            exact .call g hargs
          · rintro (_ | _ | ⟨_, hargs⟩)
            exact ⟨rfl, hargs⟩
      | _ => exact ⟨fun h => by simp [Expr.aligned] at h, nofun⟩

theorem Expr.alignedList_iff (b : Bindings) : (es fs : List Expr) →
    (Expr.alignedList b es fs = true ↔ Expr.MatchesAll b.matching es fs)
  | [], [] => ⟨fun _ => .nil, fun _ => rfl⟩
  | e :: es, f :: fs => by
      rw [Expr.alignedList, Bool.and_eq_true, Expr.aligned_iff b e f, Expr.alignedList_iff b es fs]
      exact ⟨fun h => .cons h.1 h.2, fun | .cons he hes => ⟨he, hes⟩⟩
  | [], _ :: _ => ⟨fun h => by simp [Expr.alignedList] at h, nofun⟩
  | _ :: _, [] => ⟨fun h => by simp [Expr.alignedList] at h, nofun⟩

end

theorem Expr.alignedOption_iff (b : Bindings) : (e f : Option Expr) →
    (Expr.alignedOption b e f = true ↔ Expr.MatchesOption b.matching e f)
  | some e, some f => by
      rw [Expr.alignedOption, Expr.aligned_iff]
      exact ⟨.some, fun | .some h => h⟩
  | none, none => ⟨fun _ => .none, fun _ => rfl⟩
  | some _, none => ⟨fun h => by simp [Expr.alignedOption] at h, nofun⟩
  | none, some _ => ⟨fun h => by simp [Expr.alignedOption] at h, nofun⟩

/-! ## Alignments as a relation -/

mutual

/-- Statements that are aligned, and the bindings in front of them and behind them. -/
inductive Stmt.Aligns : Stmt → Stmt → Bindings → Bindings → Prop where
  | expr {e f : Expr} {b : Bindings} :
      e.aligned b f = true → Stmt.Aligns (.expr e) (.expr f) b b
  | assign {xs ys : List String} {e f : Expr} {b : Bindings} :
      e.aligned b f = true → b.agreeAll xs ys = true →
      Stmt.Aligns (.assign xs e) (.assign ys f) b b
  | declare {vars vars' : List TypedName} {e f : Option Expr} {b b' : Bindings} :
      Expr.alignedOption b e f = true → Bindings.declare vars vars' b = some b' →
      Stmt.Aligns (.declare vars e) (.declare vars' f) b b'
  | define (name : String) {ps qs rs ts : List TypedName} {body body' : Block}
      {b b₁ b₂ b₃ : Bindings} :
      Bindings.declare ps qs b.push = some b₁ → Bindings.declare rs ts b₁ = some b₂ →
      Block.Aligns body body' b₂.push b₃ →
      Stmt.Aligns (.define name ps rs body) (.define name qs ts body') b b₃.pop.pop
  | branch {c d : Expr} {body body' : Block} {b b' : Bindings} :
      c.aligned b d = true → Block.Aligns body body' b.push b' →
      Stmt.Aligns (.branch c body) (.branch d body') b b'.pop
  | switch {e f : Expr} {cases cases' : List Case} {b b' : Bindings} :
      e.aligned b f = true → Case.Aligns cases cases' b b' →
      Stmt.Aligns (.switch e cases) (.switch f cases') b b'
  | loop {pre pre' post post' body body' : Block} {c d : Expr} {b b₁ b₂ b₃ : Bindings} :
      Block.Aligns pre pre' b.push b₁ → c.aligned b₁ d = true →
      Block.Aligns post post' b₁.push b₂ → Block.Aligns body body' b₂.pop.push b₃ →
      Stmt.Aligns (.loop pre c post body) (.loop pre' d post' body') b b₃.pop.pop
  | break {b : Bindings} : Stmt.Aligns .break .break b b
  | continue {b : Bindings} : Stmt.Aligns .continue .continue b b
  | leave {b : Bindings} : Stmt.Aligns .leave .leave b b
  | block {body body' : Block} {b b' : Bindings} :
      Block.Aligns body body' b.push b' → Stmt.Aligns (.block body) (.block body') b b'.pop

/-- Statements of one scope that are aligned one by one. -/
inductive Block.Aligns : List Stmt → List Stmt → Bindings → Bindings → Prop where
  | nil {b : Bindings} : Block.Aligns [] [] b b
  | cons {s t : Stmt} {rest rest' : Block} {b b₁ b' : Bindings} :
      s.Aligns t b b₁ → Block.Aligns rest rest' b₁ b' →
      Block.Aligns (s :: rest) (t :: rest') b b'

/-- Cases that are aligned one by one. -/
inductive Case.Aligns : List Case → List Case → Bindings → Bindings → Prop where
  | nil {b : Bindings} : Case.Aligns [] [] b b
  | cons (value : Option Literal) {body body' : Block} {cs ds : List Case}
      {b b₁ b' : Bindings} :
      Block.Aligns body body' b.push b₁ → Case.Aligns cs ds b₁.pop b' →
      Case.Aligns (⟨value, body⟩ :: cs) (⟨value, body'⟩ :: ds) b b'

end

mutual

theorem Stmt.aligns_of_eq_some : (s t : Stmt) → {b b' : Bindings} → s.align t b = some b' →
    s.Aligns t b b'
  | .expr e, t, _, _, h => by
      cases t <;> simp only [Stmt.align, reduceCtorEq] at h
      obtain ⟨he, ⟨⟩⟩ := Option.ite_none_right_eq_some.mp h
      exact .expr he
  | .assign xs e, t, _, _, h => by
      cases t <;> simp only [Stmt.align, reduceCtorEq] at h
      obtain ⟨he, ⟨⟩⟩ := Option.ite_none_right_eq_some.mp h
      rw [Bool.and_eq_true] at he
      exact .assign he.1 he.2
  | .declare vars e, t, _, _, h => by
      cases t <;> simp only [Stmt.align, reduceCtorEq] at h
      obtain ⟨he, hdeclare⟩ := Option.ite_none_right_eq_some.mp h
      exact .declare he hdeclare
  | .define name ps rs body, t, _, _, h => by
      cases t <;> simp only [Stmt.align, reduceCtorEq] at h
      obtain ⟨rfl, hrest⟩ := Option.ite_none_right_eq_some.mp h
      simp only [Option.bind_eq_bind, Option.bind_eq_some_iff, Option.some_inj] at hrest
      obtain ⟨b₁, hps, b₂, hrs, b₃, hbody, rfl⟩ := hrest
      exact .define name hps hrs (Block.aligns_of_eq_some body _ hbody)
  | .branch c body, t, _, _, h => by
      cases t <;> simp only [Stmt.align, reduceCtorEq] at h
      obtain ⟨hc, hrest⟩ := Option.ite_none_right_eq_some.mp h
      obtain ⟨b₁, hbody, rfl⟩ := Option.map_eq_some_iff.mp hrest
      exact .branch hc (Block.aligns_of_eq_some body _ hbody)
  | .switch e cases, t, _, _, h => by
      cases t <;> simp only [Stmt.align, reduceCtorEq] at h
      obtain ⟨he, hcases⟩ := Option.ite_none_right_eq_some.mp h
      exact .switch he (Case.aligns_of_eq_some cases _ hcases)
  | .loop pre c post body, t, _, _, h => by
      cases t <;> simp only [Stmt.align, reduceCtorEq] at h
      simp only [Option.bind_eq_bind, Option.bind_eq_some_iff] at h
      obtain ⟨b₁, hpre, hrest⟩ := h
      obtain ⟨hc, hrest⟩ := Option.ite_none_right_eq_some.mp hrest
      simp only [Option.bind_eq_some_iff, Option.some_inj] at hrest
      obtain ⟨b₂, hpost, b₃, hbody, rfl⟩ := hrest
      exact .loop (Block.aligns_of_eq_some pre _ hpre) hc (Block.aligns_of_eq_some post _ hpost)
        (Block.aligns_of_eq_some body _ hbody)
  | .break, t, _, _, h => by
      cases t <;> simp only [Stmt.align, reduceCtorEq, Option.some_inj] at h
      exact h ▸ .break
  | .continue, t, _, _, h => by
      cases t <;> simp only [Stmt.align, reduceCtorEq, Option.some_inj] at h
      exact h ▸ .continue
  | .leave, t, _, _, h => by
      cases t <;> simp only [Stmt.align, reduceCtorEq, Option.some_inj] at h
      exact h ▸ .leave
  | .block body, t, _, _, h => by
      cases t <;> simp only [Stmt.align, reduceCtorEq] at h
      obtain ⟨b₁, hbody, rfl⟩ := Option.map_eq_some_iff.mp h
      exact .block (Block.aligns_of_eq_some body _ hbody)

theorem Block.aligns_of_eq_some : (c d : List Stmt) → {b b' : Bindings} →
    Block.align c d b = some b' → Block.Aligns c d b b'
  | [], d, _, _, h => by
      cases d <;> simp only [Block.align, reduceCtorEq, Option.some_inj] at h
      exact h ▸ .nil
  | s :: rest, d, _, _, h => by
      cases d <;> simp only [Block.align, reduceCtorEq] at h
      simp only [Option.bind_eq_bind, Option.bind_eq_some_iff] at h
      obtain ⟨b₁, hs, hrest⟩ := h
      exact .cons (Stmt.aligns_of_eq_some s _ hs) (Block.aligns_of_eq_some rest _ hrest)

theorem Case.aligns_of_eq_some : (cs ds : List Case) → {b b' : Bindings} →
    Case.align cs ds b = some b' → Case.Aligns cs ds b b'
  | [], ds, _, _, h => by
      cases ds <;> simp only [Case.align, reduceCtorEq, Option.some_inj] at h
      exact h ▸ .nil
  | ⟨value, body⟩ :: rest, ds, _, _, h => by
      rcases ds with _ | ⟨⟨value', body'⟩, ds⟩ <;> simp only [Case.align, reduceCtorEq] at h
      obtain ⟨rfl, hrest⟩ := Option.ite_none_right_eq_some.mp h
      simp only [Option.bind_eq_bind, Option.bind_eq_some_iff] at hrest
      obtain ⟨b₁, hbody, hcases⟩ := hrest
      exact .cons _ (Block.aligns_of_eq_some body _ hbody) (Case.aligns_of_eq_some rest _ hcases)

end

mutual

theorem Stmt.Aligns.eq_some : {s t : Stmt} → {b b' : Bindings} → s.Aligns t b b' →
    s.align t b = some b'
  | _, _, _, _, .expr he => if_pos he
  | _, _, _, _, .assign he hxs => if_pos (Bool.and_eq_true _ _ ▸ ⟨he, hxs⟩)
  | _, _, _, _, .declare he hdeclare => (if_pos he).trans hdeclare
  | _, _, _, _, .define _ hps hrs hbody => by simp [Stmt.align, hps, hrs, hbody.eq_some]
  | _, _, _, _, .branch hc hbody => by simp [Stmt.align, hc, hbody.eq_some]
  | _, _, _, _, .switch he hcases => (if_pos he).trans hcases.eq_some
  | _, _, _, _, .loop hpre hc hpost hbody => by
      simp [Stmt.align, hpre.eq_some, hc, hpost.eq_some, hbody.eq_some]
  | _, _, _, _, .break => rfl
  | _, _, _, _, .continue => rfl
  | _, _, _, _, .leave => rfl
  | _, _, _, _, .block hbody => by simp [Stmt.align, hbody.eq_some]

theorem Block.Aligns.eq_some : {c d : List Stmt} → {b b' : Bindings} → Block.Aligns c d b b' →
    Block.align c d b = some b'
  | _, _, _, _, .nil => rfl
  | _, _, _, _, .cons hs hrest => by simp [Block.align, hs.eq_some, hrest.eq_some]

theorem Case.Aligns.eq_some : {cs ds : List Case} → {b b' : Bindings} → Case.Aligns cs ds b b' →
    Case.align cs ds b = some b'
  | _, _, _, _, .nil => rfl
  | _, _, _, _, .cons _ hbody hrest => by simp [Case.align, hbody.eq_some, hrest.eq_some]

end

/-- The relation is the graph of the alignment. -/
theorem Stmt.align_eq_some_iff {s t : Stmt} {b b' : Bindings} :
    s.align t b = some b' ↔ s.Aligns t b b' :=
  ⟨Stmt.aligns_of_eq_some s t, Stmt.Aligns.eq_some⟩

/-! ## Alignments and matchings -/

mutual

/-- Aligned statements match, and their alignment ends in the bindings of the
matching behind them. -/
theorem Stmt.Aligns.matches : {s t : Stmt} → {b b' : Bindings} → s.Aligns t b b' → b.Open →
    s.Matches b.matching t ∧ b.Leads b' (b.matching.bindAll s.declared t.declared)
  | _, _, b, _, .expr he, hb => ⟨.expr ((Expr.aligned_iff b _ _).mp he), .refl hb⟩
  | _, _, b, _, .assign he hxs, hb =>
      ⟨.assign ((Expr.aligned_iff b _ _).mp he) ((b.agreeAll_iff _ _).mp hxs), .refl hb⟩
  | _, _, b, _, .declare he hdeclare, hb => by
      obtain ⟨htypes, hleads⟩ := Bindings.declare_eq_some _ _ hb hdeclare
      exact ⟨.declare ((Expr.alignedOption_iff b _ _).mp he) htypes, hleads⟩
  | _, _, _, _, .define name hps hrs hbody, hb => by
      obtain ⟨htypes₁, hleads₁⟩ := Bindings.declare_eq_some _ _ hb.push hps
      obtain ⟨htypes₂, hleads₂⟩ := Bindings.declare_eq_some _ _ hleads₁.isOpen hrs
      obtain ⟨hmatch, hleads₃⟩ := hbody.matches hleads₂.isOpen.push
      -- Parameters and returns are numbered in two steps, but a matching binds them at once.
      rw [Bindings.matching_push, hleads₂.matching_eq, hleads₁.matching_eq,
        Bindings.matching_push, ← Matching.bindAll_names_append htypes₁] at hmatch
      exact ⟨.define name htypes₁ htypes₂ hmatch,
        ((hleads₁.trans hleads₂).trans (hleads₃.pop hleads₂.isOpen)).pop hb⟩
  | _, _, b, _, .branch hc hbody, hb => by
      obtain ⟨hmatch, hleads⟩ := hbody.matches hb.push
      rw [Bindings.matching_push] at hmatch
      exact ⟨.branch ((Expr.aligned_iff b _ _).mp hc) hmatch, hleads.pop hb⟩
  | _, _, b, _, .switch he hcases, hb => by
      obtain ⟨hmatch, hleads⟩ := hcases.matches hb
      exact ⟨.switch ((Expr.aligned_iff b _ _).mp he) hmatch, hleads⟩
  | _, _, _, _, .loop hpre hc hpost hbody, hb => by
      obtain ⟨hmatch₁, hleads₁⟩ := hpre.matches hb.push
      obtain ⟨hmatch₂, hleads₂⟩ := hpost.matches hleads₁.isOpen.push
      have hpop₂ := hleads₂.pop hleads₁.isOpen
      obtain ⟨hmatch₃, hleads₃⟩ := hbody.matches hpop₂.isOpen.push
      -- All that follows is compared behind the first block; the second leaves nothing behind.
      have hc := (Expr.aligned_iff _ _ _).mp hc
      rw [Bindings.matching_push] at hmatch₁ hmatch₂ hmatch₃
      rw [hpop₂.matching_eq] at hmatch₃
      rw [hleads₁.matching_eq, Bindings.matching_push] at hc hmatch₂ hmatch₃
      exact ⟨.loop hmatch₁ hc hmatch₂ hmatch₃,
        ((hleads₁.trans hpop₂).trans (hleads₃.pop hpop₂.isOpen)).pop hb⟩
  | _, _, _, _, .break, hb => ⟨.break, .refl hb⟩
  | _, _, _, _, .continue, hb => ⟨.continue, .refl hb⟩
  | _, _, _, _, .leave, hb => ⟨.leave, .refl hb⟩
  | _, _, _, _, .block hbody, hb => by
      obtain ⟨hmatch, hleads⟩ := hbody.matches hb.push
      rw [Bindings.matching_push] at hmatch
      exact ⟨.block hmatch, hleads.pop hb⟩

theorem Block.Aligns.matches : {c d : List Stmt} → {b b' : Bindings} → Block.Aligns c d b b' →
    b.Open → Block.Matches b.matching c d ∧ b.Leads b' (b.matching.after c d)
  | _, _, _, _, .nil, hb => ⟨.nil, .refl hb⟩
  | _, _, _, _, .cons hs hrest, hb => by
      obtain ⟨hmatch₁, hleads₁⟩ := hs.matches hb
      obtain ⟨hmatch₂, hleads₂⟩ := hrest.matches hleads₁.isOpen
      rw [hleads₁.matching_eq] at hmatch₂ hleads₂
      rw [Matching.after_cons hmatch₁.length_declared]
      exact ⟨.cons hmatch₁ hmatch₂, hleads₁.trans hleads₂⟩

theorem Case.Aligns.matches : {cs ds : List Case} → {b b' : Bindings} → Case.Aligns cs ds b b' →
    b.Open → Case.Matches b.matching cs ds ∧ b.Leads b' b.matching
  | _, _, _, _, .nil, hb => ⟨.nil, .refl hb⟩
  | _, _, _, _, .cons value hbody hrest, hb => by
      obtain ⟨hmatch₁, hleads₁⟩ := hbody.matches hb.push
      have hpop := hleads₁.pop hb
      obtain ⟨hmatch₂, hleads₂⟩ := hrest.matches hpop.isOpen
      rw [Bindings.matching_push] at hmatch₁
      rw [hpop.matching_eq] at hmatch₂ hleads₂
      exact ⟨.cons value hmatch₁ hmatch₂, hpop.trans hleads₂⟩

end

mutual

/-- Statements that match under the agreement of names are aligned. -/
theorem Stmt.exists_aligns : (s t : Stmt) → {b : Bindings} → b.Open → s.Matches b.matching t →
    ∃ b', s.Aligns t b b'
  | .expr _, _, b, _, .expr he => ⟨b, .expr ((Expr.aligned_iff b _ _).mpr he)⟩
  | .assign _ _, _, b, _, .assign he hxs =>
      ⟨b, .assign ((Expr.aligned_iff b _ _).mpr he) ((b.agreeAll_iff _ _).mpr hxs)⟩
  | .declare _ _, _, b, _, .declare he htypes => by
      obtain ⟨b', hb'⟩ := Bindings.declare_isSome _ _ b htypes
      exact ⟨b', .declare ((Expr.alignedOption_iff b _ _).mpr he) hb'⟩
  | .define name ps rs body, .define _ qs ts body', b, hb, .define _ hps hrs hbody => by
      obtain ⟨b₁, hb₁⟩ := Bindings.declare_isSome _ _ b.push hps
      obtain ⟨b₂, hb₂⟩ := Bindings.declare_isSome _ _ b₁ hrs
      obtain ⟨-, hleads₁⟩ := Bindings.declare_eq_some _ _ hb.push hb₁
      obtain ⟨-, hleads₂⟩ := Bindings.declare_eq_some _ _ hleads₁.isOpen hb₂
      -- The bindings behind the names say what the matching says, so the bodies can be aligned.
      rw [Matching.bindAll_names_append hps, ← Bindings.matching_push b, ← hleads₁.matching_eq,
        ← hleads₂.matching_eq, ← Bindings.matching_push b₂] at hbody
      obtain ⟨b₃, hb₃⟩ := Block.exists_aligns body body' hleads₂.isOpen.push hbody
      exact ⟨b₃.pop.pop, .define name hb₁ hb₂ hb₃⟩
  | .branch _ body, .branch _ body', b, hb, .branch hc hbody => by
      rw [← Bindings.matching_push] at hbody
      obtain ⟨b', hb'⟩ := Block.exists_aligns body body' hb.push hbody
      exact ⟨b'.pop, .branch ((Expr.aligned_iff b _ _).mpr hc) hb'⟩
  | .switch _ cases, .switch _ cases', b, hb, .switch he hcases => by
      obtain ⟨b', hb'⟩ := Case.exists_aligns cases cases' hb hcases
      exact ⟨b', .switch ((Expr.aligned_iff b _ _).mpr he) hb'⟩
  | .loop pre c post body, .loop pre' d post' body', b, hb, .loop hpre hc hpost hbody => by
      rw [← Bindings.matching_push] at hpre
      obtain ⟨b₁, hb₁⟩ := Block.exists_aligns pre pre' hb.push hpre
      obtain ⟨-, hleads₁⟩ := hb₁.matches hb.push
      rw [Bindings.matching_push] at hleads₁
      rw [← hleads₁.matching_eq] at hc hpost hbody
      rw [← Bindings.matching_push] at hpost
      obtain ⟨b₂, hb₂⟩ := Block.exists_aligns post post' hleads₁.isOpen.push hpost
      obtain ⟨-, hleads₂⟩ := hb₂.matches hleads₁.isOpen.push
      have hpop := hleads₂.pop hleads₁.isOpen
      rw [← hpop.matching_eq, ← Bindings.matching_push] at hbody
      obtain ⟨b₃, hb₃⟩ := Block.exists_aligns body body' hpop.isOpen.push hbody
      exact ⟨b₃.pop.pop, .loop hb₁ ((Expr.aligned_iff b₁ _ _).mpr hc) hb₂ hb₃⟩
  | .break, _, b, _, .break => ⟨b, .break⟩
  | .continue, _, b, _, .continue => ⟨b, .continue⟩
  | .leave, _, b, _, .leave => ⟨b, .leave⟩
  | .block body, .block body', b, hb, .block hbody => by
      rw [← Bindings.matching_push] at hbody
      obtain ⟨b', hb'⟩ := Block.exists_aligns body body' hb.push hbody
      exact ⟨b'.pop, .block hb'⟩

theorem Block.exists_aligns : (c d : List Stmt) → {b : Bindings} → b.Open →
    Block.Matches b.matching c d → ∃ b', Block.Aligns c d b b'
  | [], _, b, _, .nil => ⟨b, .nil⟩
  | s :: c, t :: d, b, hb, .cons hs hrest => by
      obtain ⟨b₁, hb₁⟩ := Stmt.exists_aligns s t hb hs
      obtain ⟨-, hleads⟩ := hb₁.matches hb
      rw [← hleads.matching_eq] at hrest
      obtain ⟨b₂, hb₂⟩ := Block.exists_aligns c d hleads.isOpen hrest
      exact ⟨b₂, .cons hb₁ hb₂⟩

theorem Case.exists_aligns : (cs ds : List Case) → {b : Bindings} → b.Open →
    Case.Matches b.matching cs ds → ∃ b', Case.Aligns cs ds b b'
  | [], _, b, _, .nil => ⟨b, .nil⟩
  | ⟨_, body⟩ :: cs, ⟨_, body'⟩ :: ds, b, hb, .cons value hbody hrest => by
      rw [← Bindings.matching_push] at hbody
      obtain ⟨b₁, hb₁⟩ := Block.exists_aligns body body' hb.push hbody
      obtain ⟨-, hleads⟩ := hb₁.matches hb.push
      have hpop := hleads.pop hb
      rw [← hpop.matching_eq] at hrest
      obtain ⟨b₂, hb₂⟩ := Case.exists_aligns cs ds hpop.isOpen hrest
      exact ⟨b₂, .cons value hb₁ hb₂⟩

end

/-- Statements are equal up to declared names exactly when they match under equality
of names. -/
theorem Stmt.alphaEq_iff (s t : Stmt) : s.alphaEq t = true ↔ s.Matches Eq t := by
  rw [Stmt.alphaEq, Option.isSome_iff_exists]
  simp only [Stmt.align_eq_some_iff]
  constructor
  · rintro ⟨b', h⟩
    have hmatch := (h.matches Bindings.open_initial).1
    rwa [Bindings.matching_initial] at hmatch
  · intro h
    rw [← Bindings.matching_initial] at h
    exact Stmt.exists_aligns s t Bindings.open_initial h

end SwitchHoist
