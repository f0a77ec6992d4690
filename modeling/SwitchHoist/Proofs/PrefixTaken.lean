import Mathlib.Data.List.Forall2
import SwitchHoist.Hoisting.Prefix
import SwitchHoist.Proofs.Matching

/-!
# What taking a prefix does

One step takes a statement of the first case and a statement that counts as the
same from every other case.  `PrefixContext.take_eq_some_iff` says exactly when it
does, and `PrefixContext.split_eq_ok` says of a whole run what it has done to the
first case and to each of the others.  Nothing here asks which equivalence is used;
one that never takes a declaration for something else makes every run succeed.
-/

namespace SwitchHoist

theorem mapM_eq_some_iff {α β : Type} {f : α → Option β} {xs : List α} {ys : List β} :
    xs.mapM f = some ys ↔ List.Forall₂ (fun x y => f x = some y) xs ys := by
  induction xs generalizing ys with
  | nil => cases ys <;> simp
  | cons x xs ih =>
      rw [List.mapM_cons]
      cases hx : f x with
      | none => cases ys <;> simp [hx]
      | some y =>
          cases hxs : xs.mapM f with
          | none => cases ys <;> simp [← ih, hxs]
          | some zs => cases ys <;> simp [← ih, hxs, hx]

theorem mapM_eq_ok_iff {ε α β : Type} {f : α → Except ε β} {xs : List α} {ys : List β} :
    xs.mapM f = .ok ys ↔ List.Forall₂ (fun x y => f x = .ok y) xs ys := by
  induction xs generalizing ys with
  | nil => cases ys <;> simp [pure, Except.pure]
  | cons x xs ih =>
      rw [List.mapM_cons]
      cases hx : f x with
      | error e => cases ys <;> simp [bind, Except.bind, hx]
      | ok y =>
          cases hxs : xs.mapM f with
          | error e => cases ys <;> simp [bind, Except.bind, ← ih, hxs]
          | ok zs => cases ys <;> simp [bind, Except.bind, pure, Except.pure, ← ih, hxs, hx]

/-- Lists that are related in two steps. -/
theorem exists_forall₂_iff {α β γ : Type} {R : α → β → Prop} {S : β → γ → Prop} {xs : List α}
    {zs : List γ} :
    (∃ ys, List.Forall₂ R xs ys ∧ List.Forall₂ S ys zs) ↔
      List.Forall₂ (fun x z => ∃ y, R x y ∧ S y z) xs zs := by
  constructor
  · rintro ⟨ys, hxy, hyz⟩
    induction hxy generalizing zs with
    | nil =>
        cases hyz
        exact .nil
    | cons hr _ ih =>
        cases hyz with
        | cons hs hyz => exact .cons ⟨_, hr, hs⟩ (ih hyz)
  · intro h
    induction h with
    | nil => exact ⟨[], .nil, .nil⟩
    | cons hxz _ ih =>
        obtain ⟨y, hr, hs⟩ := hxz
        obtain ⟨ys, hxy, hyz⟩ := ih
        exact ⟨y :: ys, .cons hr hxy, .cons hs hyz⟩

theorem forall₂_congr {α β : Type} {R S : α → β → Prop} (h : ∀ x y, R x y ↔ S x y) {xs : List α}
    {ys : List β} : List.Forall₂ R xs ys ↔ List.Forall₂ S xs ys :=
  ⟨fun hxy => hxy.imp fun x y => (h x y).mp, fun hxy => hxy.imp fun x y => (h x y).mpr⟩

theorem forall₂_and_right {α β : Type} {R : α → β → Prop} {P : β → Prop} {xs : List α}
    {ys : List β} :
    List.Forall₂ (fun x y => R x y ∧ P y) xs ys ↔ List.Forall₂ R xs ys ∧ ∀ y ∈ ys, P y := by
  induction xs generalizing ys with
  | nil => cases ys <;> simp
  | cons x xs ih =>
      cases ys with
      | nil => simp
      | cons y ys => simp only [List.forall₂_cons, ih, List.forall_mem_cons, and_assoc, and_left_comm]

/-- A statement that is no declaration declares nothing. -/
theorem Stmt.declared_eq_nil {s : Stmt} (h : s.isDeclaration = false) : s.declared = [] := by
  cases s with
  | declare vars e => simp [Stmt.isDeclaration] at h
  | _ => rfl

/-- What a statement leaves alone that may move. -/
theorem Pinned.allows_iff {pinned : Pinned} {s : Stmt} :
    pinned.allows s = true ↔
      s.defined? = none ∧ (∀ x ∈ s.declared, x ∉ pinned.variableNames) ∧
        (∀ x ∈ s.written, x ∉ pinned.variableNames) ∧ ∀ f ∈ s.called, f ∉ pinned.functions := by
  simp only [allows, Bool.and_eq_true, Option.isNone_iff_eq_none, Names.disjoint_iff, and_assoc]

namespace Follower

/-- What one step does to a case after the first, when it takes the statement `s` of
the first case and has taken the names `taken` before. -/
structure Step (equivalent : Equivalence) (taken : Names) (s t : Stmt) (f g : Follower) : Prop where
  rest : f.rest = t :: g.rest
  value : g.value = f.value
  equal : equivalent s (f.renames.stmt t) = true
  form : t.isDeclaration = s.isDeclaration
  arity : t.declared.length = s.declared.length
  renames : g.renames = f.renames.insertAll t.declared s.declared
  preserved : s.isDeclaration = true → g.renames.preserves (taken ++ s.declared) g.rest = true

/-- What a run does to a case after the first, when it takes the statements `b` of
the first case. -/
inductive Run (equivalent : Equivalence) : Names → Block → Follower → Follower → Prop where
  | done {taken : Names} {f : Follower} : Run equivalent taken [] f f
  | step {taken : Names} {s t : Stmt} {b : Block} {f g h : Follower} :
      Step equivalent taken s t f g → Run equivalent (taken ++ s.declared) b g h →
      Run equivalent taken (s :: b) f h

theorem next?_eq_some_iff {f : Follower} {head : Stmt × Follower} :
    f.next? = some head ↔
      f.rest = head.1 :: head.2.rest ∧ head.2.value = f.value ∧ head.2.renames = f.renames := by
  obtain ⟨value, rest, renames⟩ := f
  obtain ⟨t, value', rest', renames'⟩ := head
  cases rest with
  | nil => simp [next?]
  | cons s rest =>
      simp only [next?, Option.some_inj, Prod.mk.injEq, Follower.mk.injEq, List.cons.injEq]
      grind

/-- What is left of a case when its next statement moves with the statement `s`. -/
structure Moved (taken : Names) (s : Stmt) (head : Stmt × Follower) (g : Follower) : Prop where
  form : head.1.isDeclaration = s.isDeclaration
  arity : head.1.declared.length = s.declared.length
  eq : g = { head.2 with renames := head.2.renames.insertAll head.1.declared s.declared }
  preserved : s.isDeclaration = true → g.renames.preserves (taken ++ s.declared) g.rest = true

/-- A declaration is paired with a declaration of equally many names. -/
theorem pair_eq_ok_iff {reference : Stmt} {names : List String} {head : Stmt × Follower}
    {g : Follower} :
    pair reference names head = .ok g ↔
      head.1.isDeclaration = true ∧ head.1.declared.length = names.length ∧
        g = { head.2 with renames := head.2.renames.insertAll head.1.declared names } := by
  obtain ⟨t, f⟩ := head
  cases t with
  | declare own e =>
      simp only [pair, Stmt.isDeclaration, Stmt.declared, TypedName.names, List.length_map]
      split
      · next h => simp [h, eq_comm]
      · next h => simp [h]
  | _ => simp [pair, Stmt.isDeclaration]

theorem moved_declaration_iff {taken : Names} {s : Stmt} (hs : s.isDeclaration = true)
    {head : Stmt × Follower} {g : Follower} :
    Moved taken s head g ↔ pair s s.declared head = .ok g ∧
      g.renames.preserves (taken ++ s.declared) g.rest = true := by
  rw [pair_eq_ok_iff]
  constructor
  · intro h
    exact ⟨⟨h.form.trans hs, h.arity, h.eq⟩, h.preserved hs⟩
  · rintro ⟨⟨hform, harity, heq⟩, hpreserved⟩
    exact ⟨hform.trans hs.symm, harity, heq, fun _ => hpreserved⟩

theorem moved_other_iff {taken : Names} {s : Stmt} (hs : s.isDeclaration = false)
    {head : Stmt × Follower} {g : Follower} :
    Moved taken s head g ↔ head.1.isDeclaration = false ∧ g = head.2 := by
  constructor
  · intro h
    have hform := h.form.trans hs
    refine ⟨hform, ?_⟩
    rw [h.eq, Stmt.declared_eq_nil hs, Stmt.declared_eq_nil hform]
    rfl
  · rintro ⟨hform, rfl⟩
    refine ⟨hform.trans hs.symm, ?_, ?_, ?_⟩
    · rw [Stmt.declared_eq_nil hs, Stmt.declared_eq_nil hform]
    · rw [Stmt.declared_eq_nil hs, Stmt.declared_eq_nil hform]
      rfl
    · intro hdecl
      rw [hs] at hdecl
      contradiction

/-- A step looks at the next statement of a case, compares it and lets it move. -/
theorem step_iff {equivalent : Equivalence} {taken : Names} {s : Stmt} {f g : Follower} :
    (∃ head, f.next? = some head ∧ agrees equivalent s head = true ∧ Moved taken s head g) ↔
      ∃ t, Step equivalent taken s t f g := by
  constructor
  · rintro ⟨⟨t, f'⟩, hnext, hagrees, hmoved⟩
    obtain ⟨hrest, hvalue, hrenames⟩ := next?_eq_some_iff.mp hnext
    have heq := hmoved.eq
    refine ⟨t, ?_, ?_, ?_, hmoved.form, hmoved.arity, ?_, hmoved.preserved⟩
    · rw [hrest, heq]
    · rw [heq, ← hvalue]
    · rw [← hrenames]
      exact hagrees
    · rw [heq, hrenames]
  · rintro ⟨t, h⟩
    refine ⟨(t, ⟨g.value, g.rest, f.renames⟩), ?_, h.equal, h.form, h.arity, ?_, h.preserved⟩
    · exact next?_eq_some_iff.mpr ⟨h.rest, h.value, rfl⟩
    · rw [← h.renames]

end Follower

namespace PrefixContext

/-- A statement of the first case may move: it leaves alone what is pinned, and what
it declares is neither used behind the switch nor taken before. -/
structure May (ctx : PrefixContext) (taken : Names) (s : Stmt) : Prop where
  allowed : ctx.pinned.allows s = true
  notLive : ∀ x ∈ s.declared, x ∉ ctx.live
  notTaken : ∀ x ∈ s.declared, x ∉ taken

/-- Statements of the first case may move one after another. -/
def MayAll (ctx : PrefixContext) : Names → Block → Prop
  | _, [] => True
  | taken, s :: rest => ctx.May taken s ∧ ctx.MayAll (taken ++ s.declared) rest

/-- What was declared by the statements in front counts as taken. -/
theorem MayAll.getElem {ctx : PrefixContext} {taken : Names} {b : Block} (h : ctx.MayAll taken b)
    {i : Nat} (hi : i < b.length) : ctx.May (taken ++ Block.declared (b.take i)) b[i] := by
  induction b generalizing taken i with
  | nil => cases hi
  | cons s rest ih =>
      cases i with
      | zero => simpa using h.1
      | succ i => simpa using ih h.2 (Nat.lt_of_succ_lt_succ hi)

theorem MayAll.mem {ctx : PrefixContext} {taken : Names} {b : Block} (h : ctx.MayAll taken b)
    {s : Stmt} (hs : s ∈ b) : ctx.pinned.allows s = true ∧ ∀ x ∈ s.declared, x ∉ ctx.live := by
  obtain ⟨i, hi, rfl⟩ := List.getElem_of_mem hs
  have hmay := h.getElem hi
  exact ⟨hmay.allowed, hmay.notLive⟩

/-- A declaration moves when every case has a partner for it and no occurrence is
caught. -/
theorem takeDeclaration_eq_some_iff {taken taken' : Names} {s : Stmt}
    (hs : s.isDeclaration = true) {heads : List (Stmt × Follower)} {live : Names}
    {others : List Follower} :
    takeDeclaration taken s s.declared heads live = .ok (some (taken', others)) ↔
      (∀ x ∈ s.declared, x ∉ live) ∧ (∀ x ∈ s.declared, x ∉ taken) ∧
        taken' = taken ++ s.declared ∧
        List.Forall₂ (Follower.Moved taken s) heads others := by
  have hmoved : List.Forall₂ (Follower.Moved taken s) heads others ↔
      heads.mapM (Follower.pair s s.declared) = .ok others ∧
        ∀ g ∈ others, g.renames.preserves (taken ++ s.declared) g.rest = true := by
    rw [mapM_eq_ok_iff, ← forall₂_and_right]
    exact forall₂_congr fun _ _ => Follower.moved_declaration_iff hs
  unfold takeDeclaration
  rw [hmoved, ← Names.disjoint_iff, ← Names.disjoint_iff]
  cases hpairs : heads.mapM (Follower.pair s s.declared) with
  | error e => simp [bind, Except.bind]
  | ok followers =>
      simp only [bind, Except.bind, pure, Except.pure, Bool.and_eq_true, List.all_eq_true]
      split
      · next h =>
          simp only [Except.ok.injEq, Option.some_inj, Prod.mk.injEq]
          constructor
          · rintro ⟨rfl, rfl⟩
            exact ⟨h.1.1, h.1.2, rfl, rfl, h.2⟩
          · rintro ⟨-, -, rfl, rfl, -⟩
            exact ⟨rfl, rfl⟩
      · next h =>
          simp only [reduceCtorEq, Except.ok.injEq, false_iff]
          rintro ⟨hlive, htaken, -, rfl, hpreserves⟩
          exact h ⟨⟨hlive, htaken⟩, hpreserves⟩

/-- A statement that declares nothing moves when no case has a declaration for it. -/
theorem takeOther_eq_some_iff {taken taken' : Names} {s : Stmt} (hs : s.isDeclaration = false)
    {heads : List (Stmt × Follower)} {others : List Follower} :
    takeOther taken s heads = .ok (some (taken', others)) ↔
      taken' = taken ∧ List.Forall₂ (Follower.Moved taken s) heads others := by
  have hmoved : ∀ {others : List Follower}, List.Forall₂ (Follower.Moved taken s) heads others ↔
      (∀ h ∈ heads, h.1.isDeclaration = false) ∧ others = heads.map Prod.snd := by
    intro others
    rw [forall₂_congr fun _ _ => Follower.moved_other_iff hs, List.forall₂_and_left,
      and_congr_right_iff]
    -- That no head is a declaration is the same on both sides; what is left are the pairs.
    intro _
    induction heads generalizing others with
    | nil => cases others <;> simp
    | cons h heads ih => cases others <;> simp_all
  unfold takeOther
  rw [hmoved]
  split
  · next h =>
      obtain ⟨x, hx, hdecl⟩ := List.any_eq_true.mp h
      simp only [reduceCtorEq, false_iff]
      rintro ⟨-, hnone, -⟩
      rw [hnone x hx] at hdecl
      contradiction
  · next h =>
      simp only [Bool.not_eq_true, List.any_eq_false] at h
      simp only [Except.ok.injEq, Option.some_inj, Prod.mk.injEq]
      constructor
      · rintro ⟨rfl, rfl⟩
        exact ⟨rfl, h, rfl⟩
      · rintro ⟨rfl, -, rfl⟩
        exact ⟨rfl, rfl⟩

/-- What a step does to all heads, whether it takes a declaration or not. -/
theorem takeHeads_eq_some_iff {ctx : PrefixContext} {taken taken' : Names} {s : Stmt}
    {heads : List (Stmt × Follower)} {others : List Follower} :
    (match s with
      | .declare vars _ => takeDeclaration taken s (TypedName.names vars) heads ctx.live
      | _ => takeOther taken s heads) = .ok (some (taken', others)) ↔
      (∀ x ∈ s.declared, x ∉ ctx.live) ∧ (∀ x ∈ s.declared, x ∉ taken) ∧
        taken' = taken ++ s.declared ∧ List.Forall₂ (Follower.Moved taken s) heads others := by
  cases s with
  | declare vars e => exact takeDeclaration_eq_some_iff rfl
  | _ =>
      refine (takeOther_eq_some_iff (by rfl)).trans ?_
      simp [Stmt.declared]

/-- Exactly when one step takes a statement of the first case, and what it does. -/
theorem take_eq_some_iff {ctx : PrefixContext} {taken taken' : Names} {s : Stmt}
    {others others' : List Follower} :
    ctx.take taken s others = .ok (some (taken', others')) ↔
      ctx.May taken s ∧ taken' = taken ++ s.declared ∧
        List.Forall₂ (fun f g => ∃ t, Follower.Step ctx.equivalent taken s t f g)
          others others' := by
  -- A step is three walks over the other cases: look at the next statements, compare them all,
  -- and let them move.
  have hsteps : List.Forall₂ (fun f g => ∃ t, Follower.Step ctx.equivalent taken s t f g)
      others others' ↔ ∃ heads, others.mapM Follower.next? = some heads ∧
        heads.all (Follower.agrees ctx.equivalent s) = true ∧
        List.Forall₂ (Follower.Moved taken s) heads others' := by
    simp only [← Follower.step_iff, ← exists_forall₂_iff, mapM_eq_some_iff,
      List.forall₂_and_left, List.all_eq_true]
  unfold take
  rw [hsteps]
  constructor
  · intro h
    split at h
    · next hallows =>
        split at h
        · cases h
        · next heads hheads =>
            split at h
            · next hall =>
                obtain ⟨hlive, htaken, heq, hmoved⟩ := takeHeads_eq_some_iff.mp h
                exact ⟨⟨hallows, hlive, htaken⟩, heq, heads, hheads, hall, hmoved⟩
            · cases h
    · cases h
  · rintro ⟨⟨hallows, hlive, htaken⟩, heq, heads, hheads, hall, hmoved⟩
    rw [if_pos hallows, hheads]
    simp only [hall, if_true]
    exact takeHeads_eq_some_iff.mpr ⟨hlive, htaken, heq, hmoved⟩

/-- What a run does: the statements it takes stand in front of what is left of the
first case, they may all move, and every other case has given up a statement for
each of them. -/
theorem split_eq_ok {ctx : PrefixContext} : (b : Block) → {taken : Names} →
    {others : List Follower} → {r : Split} → ctx.split taken b others = .ok r →
    b = r.hoisted ++ r.first ∧ ctx.MayAll taken r.hoisted ∧
      List.Forall₂ (Follower.Run ctx.equivalent taken r.hoisted) others r.others
  | [], taken, others, r, h => by
      rw [split, Except.ok.injEq] at h
      subst h
      exact ⟨rfl, trivial, List.forall₂_same.mpr fun _ _ => .done⟩
  | s :: rest, taken, others, r, h => by
      rw [split] at h
      cases htake : ctx.take taken s others with
      | error e => simp [htake, bind, Except.bind] at h
      | ok result =>
          cases result with
          | none =>
              simp only [htake, bind, Except.bind, Except.ok.injEq] at h
              subst h
              exact ⟨rfl, trivial, List.forall₂_same.mpr fun _ _ => .done⟩
          | some result =>
              obtain ⟨taken', others'⟩ := result
              obtain ⟨hmay, rfl, hsteps⟩ := take_eq_some_iff.mp htake
              cases hsplit : ctx.split (taken ++ s.declared) rest others' with
              | error e => simp [htake, hsplit, bind, Except.bind] at h
              | ok r' =>
                  simp only [htake, hsplit, bind, Except.bind, Except.ok.injEq] at h
                  subst h
                  obtain ⟨hrest, hmayAll, hruns⟩ := split_eq_ok rest hsplit
                  refine ⟨by rw [hrest]; rfl, ⟨hmay, hmayAll⟩, ?_⟩
                  -- Each case has made the step first and the rest of the run behind it.
                  have htwo := exists_forall₂_iff.mp ⟨others', hsteps, hruns⟩
                  exact htwo.imp fun _ _ ⟨_, ⟨_, hstep⟩, hrun⟩ => .step hstep hrun

/-- A run stops where no step takes the next statement of the first case. -/
theorem split_stops {ctx : PrefixContext} : (b : Block) → {taken : Names} →
    {others : List Follower} → {r : Split} → ctx.split taken b others = .ok r →
    {s : Stmt} → {rest : Block} → r.first = s :: rest →
    ∀ result, ctx.take (taken ++ Block.declared r.hoisted) s r.others ≠ .ok (some result)
  | [], _, _, _, h, _, _, hfirst, _ => by
      cases h
      cases hfirst
  | t :: rest, taken, others, r, h, s, rest', hfirst, result => by
      rw [split] at h
      cases htake : ctx.take taken t others with
      | error e => simp [htake, bind, Except.bind] at h
      | ok taking =>
          cases taking with
          | none =>
              simp only [htake, bind, Except.bind, Except.ok.injEq] at h
              subst h
              cases hfirst
              -- The run stopped at once, with the names it had taken before.
              rw [Block.declared_nil, List.append_nil, htake]
              exact nofun
          | some taking =>
              obtain ⟨taken', others'⟩ := taking
              obtain ⟨-, rfl, -⟩ := take_eq_some_iff.mp htake
              cases hsplit : ctx.split (taken ++ t.declared) rest others' with
              | error e => simp [htake, hsplit, bind, Except.bind] at h
              | ok r' =>
                  simp only [htake, hsplit, bind, Except.bind, Except.ok.injEq] at h
                  subst h
                  have hstops := split_stops rest hsplit hfirst result
                  rw [List.append_assoc] at hstops
                  exact hstops

end PrefixContext

/-- What taking the prefix of a switch does, on the whole list of cases. -/
theorem hoistPrefix_eq_ok {equivalent : Equivalence} {live : Names} {scrutinee : Expr}
    {cases cases' : List Case} {hoisted : Block}
    (h : hoistPrefix equivalent live scrutinee cases = .ok (hoisted, cases')) :
    ∃ first others rest followers, cases = first :: others ∧ first.body = hoisted ++ rest ∧
      cases' = ⟨first.value, rest⟩ :: followers.map Follower.toCase ∧
      PrefixContext.MayAll ⟨equivalent, Pinned.ofSwitch scrutinee cases, live⟩ [] hoisted ∧
      List.Forall₂ (fun c g => Follower.Run equivalent [] hoisted (Follower.ofCase c) g)
        others followers := by
  cases cases with
  | nil => simp [hoistPrefix] at h
  | cons first others =>
      rw [hoistPrefix] at h
      cases hsplit : PrefixContext.split
          ⟨equivalent, Pinned.ofSwitch scrutinee (first :: others), live⟩ [] first.body
          (others.map Follower.ofCase) with
      | error e => simp [hsplit, bind, Except.bind] at h
      | ok r =>
          simp only [hsplit, bind, Except.bind, Except.ok.injEq, Prod.mk.injEq] at h
          obtain ⟨rfl, rfl⟩ := h
          obtain ⟨hfirst, hmay, hruns⟩ := PrefixContext.split_eq_ok _ hsplit
          rw [List.forall₂_map_left_iff] at hruns
          exact ⟨first, others, r.first, r.others, rfl, hfirst, rfl, hmay, hruns⟩

/-! ## Equivalences that are never at fault -/

/-- An equivalence that takes declarations for declarations of equally many names
only. -/
def Equivalence.Faithful (equivalent : Equivalence) : Prop :=
  ∀ s t, equivalent s t = true →
    t.isDeclaration = s.isDeclaration ∧ t.declared.length = s.declared.length

theorem exists_mapM_eq_ok {ε α β : Type} {f : α → Except ε β} {xs : List α}
    (h : ∀ x ∈ xs, ∃ y, f x = .ok y) : ∃ ys, xs.mapM f = .ok ys := by
  induction xs with
  | nil => exact ⟨[], rfl⟩
  | cons x xs ih =>
      obtain ⟨y, hy⟩ := h x (List.mem_cons_self ..)
      obtain ⟨ys, hys⟩ := ih fun x' hx' => h x' (List.mem_cons_of_mem _ hx')
      exact ⟨y :: ys, mapM_eq_ok_iff.mpr (.cons hy (mapM_eq_ok_iff.mp hys))⟩

@[simp] theorem Renaming.isDeclaration_stmt (ρ : Renaming) (s : Stmt) :
    (ρ.stmt s).isDeclaration = s.isDeclaration := by
  cases s <;> rfl

@[simp] theorem Renaming.declared_stmt (ρ : Renaming) (s : Stmt) :
    (ρ.stmt s).declared = s.declared := by
  cases s <;> rfl

namespace PrefixContext

variable {ctx : PrefixContext}

/-- Heads that an equivalence without fault found equal can be paired. -/
theorem exists_takeHeads (hctx : ctx.equivalent.Faithful) {taken : Names} {s : Stmt}
    {heads : List (Stmt × Follower)}
    (hall : heads.all (Follower.agrees ctx.equivalent s) = true) :
    ∃ result, (match s with
      | .declare vars _ => takeDeclaration taken s (TypedName.names vars) heads ctx.live
      | _ => takeOther taken s heads) = .ok result := by
  have hfaithful : ∀ h ∈ heads, h.1.isDeclaration = s.isDeclaration ∧
      h.1.declared.length = s.declared.length := by
    intro h hh
    simpa using hctx s _ (List.all_eq_true.mp hall h hh)
  have hother : s.isDeclaration = false → ∃ result, takeOther taken s heads = .ok result := by
    intro hs
    refine ⟨some (taken, heads.map Prod.snd), if_neg ?_⟩
    rw [Bool.not_eq_true, List.any_eq_false]
    intro h hh
    rw [(hfaithful h hh).1, hs]
    exact Bool.false_ne_true
  cases s with
  | declare vars e =>
      -- Pairing fails only for a head that is no declaration of as many names.
      obtain ⟨gs, hgs⟩ := exists_mapM_eq_ok (f := Follower.pair (.declare vars e)
        (TypedName.names vars)) fun h hh =>
          ⟨_, Follower.pair_eq_ok_iff.mpr ⟨(hfaithful h hh).1, (hfaithful h hh).2, rfl⟩⟩
      simp only [takeDeclaration, hgs, bind, Except.bind]
      split
      · exact ⟨_, rfl⟩
      · exact ⟨_, rfl⟩
  | _ => exact hother rfl

theorem exists_take (hctx : ctx.equivalent.Faithful) (taken : Names) (s : Stmt)
    (others : List Follower) : ∃ result, ctx.take taken s others = .ok result := by
  unfold take
  split
  · split
    · exact ⟨none, rfl⟩
    · split
      · next hall => exact exists_takeHeads hctx hall
      · exact ⟨none, rfl⟩
  · exact ⟨none, rfl⟩

theorem exists_split (hctx : ctx.equivalent.Faithful) : (b : Block) → (taken : Names) →
    (others : List Follower) → ∃ r, ctx.split taken b others = .ok r
  | [], _, others => ⟨⟨[], [], others⟩, rfl⟩
  | s :: rest, taken, others => by
      obtain ⟨result, htake⟩ := exists_take hctx taken s others
      rw [split, htake]
      cases result with
      | none => exact ⟨_, rfl⟩
      | some result =>
          obtain ⟨r, hr⟩ := exists_split hctx rest result.1 result.2
          simp only [bind, Except.bind, hr]
          exact ⟨_, rfl⟩

end PrefixContext

/-- With an equivalence that is never at fault, only a switch without cases is. -/
theorem exists_hoistPrefix {equivalent : Equivalence} (h : equivalent.Faithful) (live : Names)
    (scrutinee : Expr) {cases : List Case} (hcases : cases ≠ []) :
    ∃ hoisted cases', hoistPrefix equivalent live scrutinee cases = .ok (hoisted, cases') := by
  cases cases with
  | nil => exact absurd rfl hcases
  | cons first others =>
      let ctx : PrefixContext := ⟨equivalent, Pinned.ofSwitch scrutinee (first :: others), live⟩
      have hctx : ctx.equivalent.Faithful := h
      obtain ⟨r, hr⟩ := PrefixContext.exists_split hctx first.body [] (others.map Follower.ofCase)
      exact ⟨r.hoisted, _, by rw [hoistPrefix, hr]; rfl⟩

end SwitchHoist
