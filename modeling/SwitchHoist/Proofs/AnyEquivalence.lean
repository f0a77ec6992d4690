import SwitchHoist.Proofs.PassTaken
import SwitchHoist.Proofs.RenamedOccurrences

/-!
# Prefixes with any equivalence

An equivalence is trusted, and one that is wrong may take any statement for any other.  Two things
hold all the same.  The prefix is the front of the first case, as many statements are missing in
front of every other case, and behind them nothing has changed but names of variables.  And a
declaration that is found equal to something else is never passed over: where the statements of
all cases are found equal and do not fit each other, taking the prefix ends with a fault.

`PrefixContext.Reaches` are the states that taking a prefix goes through.  A fault arises in one of
them, and `PrefixContext.split_eq_error_iff` says in which.
-/

namespace SwitchHoist

/-! ## Statements that do not fit each other -/

namespace Stmt

/-- Both statements declare equally many names, or neither is a declaration. -/
def Fits (s t : Stmt) : Prop :=
  t.isDeclaration = s.isDeclaration ∧ t.declared.length = s.declared.length

/-- What is wrong with a statement that stands against a reference and does not fit it. -/
def misfit? (reference own : Stmt) : Option Fault :=
  if reference.isDeclaration then
    if own.isDeclaration then
      if own.declared.length = reference.declared.length then none
      else some (.arity reference own.declared.length reference.declared.length)
    else some (.notDeclaration reference)
  else if own.isDeclaration then some (.declaration reference)
  else none

theorem misfit?_eq_none_iff {s t : Stmt} : s.misfit? t = none ↔ s.Fits t := by
  unfold misfit? Fits
  cases hs : s.isDeclaration with
  | true => cases ht : t.isDeclaration <;> simp
  | false =>
      cases ht : t.isDeclaration with
      | true => simp
      | false => simp [Stmt.declared_eq_nil hs, Stmt.declared_eq_nil ht]

end Stmt

/-- Walking through a list stops at the first element with an error. -/
theorem mapM_eq_error_iff {ε α β : Type} {f : α → Except ε β} {g : α → Option ε}
    (h : ∀ x e, f x = .error e ↔ g x = some e) {xs : List α} {e : ε} :
    xs.mapM f = .error e ↔ xs.findSome? g = some e := by
  induction xs with
  | nil => simp [pure, Except.pure]
  | cons x xs ih =>
      rw [List.mapM_cons, List.findSome?_cons]
      cases hx : f x with
      | error e' =>
          have hg : g x = some e' := (h x e').mp hx
          simp [hg, bind, Except.bind]
      | ok y =>
          have hg : g x = none := by
            rw [Option.eq_none_iff_forall_ne_some]
            intro e' he'
            rw [(h x e').mpr he'] at hx
            cases hx
          rw [hg]
          cases hxs : xs.mapM f with
          | error e' => simp [← ih, hxs, bind, Except.bind]
          | ok ys => simp [← ih, hxs, bind, Except.bind, pure, Except.pure]

theorem Follower.pair_eq_error_iff {s : Stmt} (hs : s.isDeclaration = true)
    (head : Stmt × Follower) (fault : Fault) :
    pair s s.declared head = .error fault ↔ s.misfit? head.1 = some fault := by
  obtain ⟨t, f⟩ := head
  rw [Stmt.misfit?, if_pos hs]
  cases t with
  | declare own e =>
      have hform : (Stmt.declare own e).isDeclaration = true := rfl
      have harity : (Stmt.declare own e).declared.length = own.length := List.length_map ..
      by_cases hlen : own.length = s.declared.length <;> simp [pair, hform, harity, hlen]
  | _ => simp [pair, Stmt.isDeclaration]

namespace PrefixContext

variable {ctx : PrefixContext}

theorem takeDeclaration_eq_error_iff {taken live : Names} {s : Stmt}
    (hs : s.isDeclaration = true) {heads : List (Stmt × Follower)} {fault : Fault} :
    takeDeclaration taken s s.declared heads live = .error fault ↔
      heads.findSome? (fun h => s.misfit? h.1) = some fault := by
  rw [takeDeclaration, bind_eq_error_iff, mapM_eq_error_iff (Follower.pair_eq_error_iff hs),
    or_iff_left]
  -- Behind the pairs there are only checks, which take the statement or leave it.
  rintro ⟨followers, -, hchecks⟩
  split at hchecks <;> cases hchecks

theorem takeOther_eq_error_iff {taken : Names} {s : Stmt} (hs : s.isDeclaration = false)
    {heads : List (Stmt × Follower)} {fault : Fault} :
    takeOther taken s heads = .error fault ↔
      heads.findSome? (fun h => s.misfit? h.1) = some fault := by
  have hfirst : heads.findSome? (fun h => s.misfit? h.1) =
      if heads.any (fun h => h.1.isDeclaration) then some (.declaration s) else none := by
    induction heads with
    | nil => rfl
    | cons h heads ih =>
        rw [List.findSome?_cons, ih, List.any_cons]
        cases hh : h.1.isDeclaration with
        | true => simp [Stmt.misfit?, hs, hh]
        | false => rw [Stmt.misfit?, hs, hh, Bool.false_or]; rfl
  rw [takeOther, hfirst]
  split <;> simp

/-- The heads of the other cases are at fault exactly if one of them does not fit. -/
theorem takeHeads_eq_error_iff {taken : Names} {s : Stmt} {heads : List (Stmt × Follower)}
    {fault : Fault} :
    (match s with
      | .declare vars _ => takeDeclaration taken s (TypedName.names vars) heads ctx.live
      | _ => takeOther taken s heads) = .error fault ↔
      heads.findSome? (fun h => s.misfit? h.1) = some fault := by
  cases s with
  | declare vars e => exact takeDeclaration_eq_error_iff rfl
  | _ => exact takeOther_eq_error_iff rfl

/-- Exactly when one step is at fault: the statement of the first case leaves alone what is pinned,
all other cases have a statement there that is found equal, and one of these does not fit. -/
theorem take_eq_error_iff {taken : Names} {s : Stmt} {others : List Follower} {fault : Fault} :
    ctx.take taken s others = .error fault ↔
      ctx.pinned.allows s = true ∧ ∃ heads,
        List.Forall₂ (fun f h => Follower.next? f = some h) others heads ∧
        (∀ h ∈ heads, Follower.agrees ctx.equivalent s h = true) ∧
        heads.findSome? (fun h => s.misfit? h.1) = some fault := by
  simp only [← mapM_eq_some_iff, ← List.all_eq_true]
  rw [take]
  constructor
  · intro h
    split at h
    · next hallows =>
        split at h
        · cases h
        · next heads hheads =>
            split at h
            · next hall => exact ⟨hallows, heads, hheads, hall, takeHeads_eq_error_iff.mp h⟩
            · cases h
    · cases h
  · rintro ⟨hallows, heads, hheads, hall, hfault⟩
    rw [if_pos hallows, hheads]
    simp only [hall, if_true]
    exact takeHeads_eq_error_iff.mpr hfault

/-- One step is at fault, in whatever way, exactly if a statement that is found equal does not
fit. -/
theorem exists_take_eq_error_iff {taken : Names} {s : Stmt} {others : List Follower} :
    (∃ fault, ctx.take taken s others = .error fault) ↔
      ctx.pinned.allows s = true ∧ ∃ heads,
        List.Forall₂ (fun f h => Follower.next? f = some h) others heads ∧
        (∀ h ∈ heads, Follower.agrees ctx.equivalent s h = true) ∧ ∃ h ∈ heads, ¬s.Fits h.1 := by
  have hmisfit : ∀ heads : List (Stmt × Follower),
      (∃ fault, heads.findSome? (fun h => s.misfit? h.1) = some fault) ↔
        ∃ h ∈ heads, ¬s.Fits h.1 := by
    intro heads
    rw [← Option.isSome_iff_exists, List.findSome?_isSome_iff]
    simp only [← Stmt.misfit?_eq_none_iff, ← Option.isSome_iff_ne_none]
  simp only [take_eq_error_iff, ← hmisfit]
  constructor
  · rintro ⟨fault, hallows, heads, hheads, hall, hfault⟩
    exact ⟨hallows, heads, hheads, hall, fault, hfault⟩
  · rintro ⟨hallows, heads, hheads, hall, fault, hfault⟩
    exact ⟨fault, hallows, heads, hheads, hall, hfault⟩

end PrefixContext

/-! ## The states that taking a prefix goes through -/

/-- How far taking a prefix has come: the names declared by what has moved, what is left of the
first case, and the other cases. -/
structure PrefixState where
  taken : Names
  first : Block
  others : List Follower

/-- Before anything has moved. -/
def PrefixState.start (first : Case) (others : List Case) : PrefixState :=
  ⟨[], first.body, others.map Follower.ofCase⟩

namespace PrefixContext

/-- The states that are reached from a state by taking statements of the first case. -/
inductive Reaches (ctx : PrefixContext) : PrefixState → PrefixState → Prop where
  | refl (p : PrefixState) : Reaches ctx p p
  | step {taken taken' : Names} {s : Stmt} {rest : Block} {others others' : List Follower}
      {p : PrefixState} :
      ctx.take taken s others = .ok (some (taken', others')) →
      Reaches ctx ⟨taken', rest, others'⟩ p → Reaches ctx ⟨taken, s :: rest, others⟩ p

/-- A statement of the first case is reached that leaves alone what is pinned and that is found
equal to the statements of all other cases, but one of these does not fit it. -/
inductive MeetsMisfit (ctx : PrefixContext) (start : PrefixState) (fault : Fault) : Prop where
  | intro {taken : Names} {s : Stmt} {rest : Block} {others : List Follower}
      {heads : List (Stmt × Follower)} :
      ctx.Reaches start ⟨taken, s :: rest, others⟩ →
      ctx.pinned.allows s = true →
      List.Forall₂ (fun f h => Follower.next? f = some h) others heads →
      (∀ h ∈ heads, Follower.agrees ctx.equivalent s h = true) →
      heads.findSome? (fun h => s.misfit? h.1) = some fault → MeetsMisfit ctx start fault

variable {ctx : PrefixContext}

theorem split_cons_eq_error_iff {taken : Names} {s : Stmt} {rest : Block} {others : List Follower}
    {fault : Fault} :
    ctx.split taken (s :: rest) others = .error fault ↔
      ctx.take taken s others = .error fault ∨
        ∃ taken' others', ctx.take taken s others = .ok (some (taken', others')) ∧
          ctx.split taken' rest others' = .error fault := by
  rw [split, bind_eq_error_iff]
  refine or_congr_right ⟨?_, ?_⟩
  · rintro ⟨result, htake, hrest⟩
    cases result with
    | none => cases hrest
    | some result => exact ⟨result.1, result.2, htake, bind_ok_eq_error_iff.mp hrest⟩
  · rintro ⟨taken', others', htake, hrest⟩
    exact ⟨some (taken', others'), htake, bind_ok_eq_error_iff.mpr hrest⟩

/-- A run is at fault exactly if one of the states that it goes through is. -/
theorem split_eq_error_iff {fault : Fault} : (b : Block) → {taken : Names} →
    {others : List Follower} →
    (ctx.split taken b others = .error fault ↔ ctx.MeetsMisfit ⟨taken, b, others⟩ fault)
  | [], taken, others => by
      refine iff_of_false nofun ?_
      rintro ⟨hreaches, -, -, -, -⟩
      cases hreaches
  | s :: rest, taken, others => by
      rw [split_cons_eq_error_iff]
      constructor
      · rintro (hfault | ⟨taken', others', htake, hrest⟩)
        · obtain ⟨hallows, heads, hheads, hall, hmisfit⟩ := take_eq_error_iff.mp hfault
          exact .intro (.refl _) hallows hheads hall hmisfit
        · obtain ⟨hreaches, hallows, hheads, hall, hmisfit⟩ := (split_eq_error_iff rest).mp hrest
          exact .intro (.step htake hreaches) hallows hheads hall hmisfit
      · rintro ⟨hreaches, hallows, hheads, hall, hmisfit⟩
        cases hreaches with
        | refl => exact Or.inl (take_eq_error_iff.mpr ⟨hallows, _, hheads, hall, hmisfit⟩)
        | step htake hreaches =>
            exact Or.inr ⟨_, _, htake,
              (split_eq_error_iff rest).mpr (.intro hreaches hallows hheads hall hmisfit)⟩

end PrefixContext

/-! ## What is left of the cases -/

/-- What is left of a case behind the statements that it has given up for a prefix: its last
statements in their order, with other names for some variables.  Each statement that it has given
up fits the one in the prefix. -/
structure Case.Shortened (hoisted : Block) (c c' : Case) : Prop where
  value : c'.value = c.value
  enough : hoisted.length ≤ c.body.length
  fits : List.Forall₂ Stmt.Fits hoisted (c.body.take hoisted.length)
  renamed : ∃ ρ : Renaming, c'.body = ρ.stmts (c.body.drop hoisted.length)
  unchanged : Block.blanked c'.body = Block.blanked (c.body.drop hoisted.length)

/-- A run takes a statement that fits for each statement of the prefix. -/
theorem Follower.Run.fits {equivalent : Equivalence} {taken : Names} {b : Block} {f g : Follower}
    (h : Run equivalent taken b f g) :
    g.value = f.value ∧ List.Forall₂ Stmt.Fits b (f.rest.take b.length) ∧
      g.rest = f.rest.drop b.length := by
  induction h with
  | done => exact ⟨rfl, .nil, rfl⟩
  | step hstep _ ih =>
      obtain ⟨hvalue, hfits, hrest⟩ := ih
      rw [hstep.rest]
      exact ⟨hvalue.trans hstep.value, .cons ⟨hstep.form, hstep.arity⟩ hfits, hrest⟩

theorem Follower.Run.shortened {equivalent : Equivalence} {b : Block} {c : Case} {g : Follower}
    (h : Run equivalent [] b (ofCase c) g) : c.Shortened b g.toCase := by
  obtain ⟨hvalue, hfits, hrest⟩ := h.fits
  have henough : b.length ≤ c.body.length := by
    have hlength := hfits.length_eq
    rw [List.length_take] at hlength
    exact hlength ▸ Nat.min_le_right ..
  have hbody : g.toCase.body = g.renames.stmts (c.body.drop b.length) := by
    rw [toCase, hrest]
    rfl
  refine ⟨hvalue, henough, hfits, ⟨g.renames, hbody⟩, ?_⟩
  rw [hbody]
  exact Block.blanked_renameFrom g.renames _ _

/-- Whatever the equivalence finds equal, a prefix that is taken is the front of the first case,
and every other case is its own end behind as many statements that fit, but for the names of
variables.  And no misfit is passed over: taking the prefix is at fault exactly if it comes to
statements that are found equal and of which one does not fit, and the first of these is the
fault. -/
theorem hoistPrefix_loses_nothing (equivalent : Equivalence) (live : Names) (scrutinee : Expr)
    (first : Case) (others : List Case) :
    (∀ hoisted cases',
      hoistPrefix equivalent live scrutinee (first :: others) = .ok (hoisted, cases') →
      (Stmt.switch scrutinee (first :: others)).hoistOut equivalent [] live =
          .ok (hoisted ++ [.switch scrutinee cases']) ∧
        ∃ rest others', cases' = ⟨first.value, rest⟩ :: others' ∧
          hoisted ++ rest = first.body ∧
          List.Forall₂ (Case.Shortened hoisted) others others') ∧
    ∀ fault,
      hoistPrefix equivalent live scrutinee (first :: others) = .error fault ↔
        PrefixContext.MeetsMisfit
          ⟨equivalent, Pinned.ofSwitch scrutinee (first :: others), live⟩
          (PrefixState.start first others) fault := by
  constructor
  · intro hoisted cases' h
    obtain ⟨_, _, rest, followers, hcases, hfirst, rfl, -, hruns⟩ := hoistPrefix_eq_ok h
    cases hcases
    refine ⟨?_, rest, _, rfl, hfirst.symm, ?_⟩
    · have hlive : Block.freeNames [] ++ live = live := rfl
      rw [Stmt.hoistOut, hlive, h]
      rfl
    · rw [List.forall₂_map_right_iff]
      exact hruns.imp fun c g hrun => hrun.shortened
  · intro fault
    rw [hoistPrefix, bind_ok_eq_error_iff]
    exact PrefixContext.split_eq_error_iff first.body

/-- An equivalence that takes everything for equal is at fault for the number of declared names. -/
example :
    hoistPrefix (fun _ _ => true) [] (.variable "x")
        [⟨some ⟨.number, "0", none⟩, [.break, .declareUntyped ["a"] none]⟩,
          ⟨none, [.leave, .declareUntyped ["b", "c"] none]⟩] =
      .error (.arity (.declareUntyped ["a"] none) 2 1) := by
  rfl

end SwitchHoist
