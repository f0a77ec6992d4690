import SwitchHoist.Proofs.CaseMeaning
import SwitchHoist.Proofs.Settled

/-!
# The order of the cases

The first case of a switch gives the prefix its names; all other cases are treated alike.  Each
of them is asked for itself whether it can give up statements for a front of the first case, and
the prefix is the longest front for which all of them can: `hoistPrefix_longest`.  What is left of
a case depends on the case and the prefix alone, `Follower.Run.unique`.  So the prefix depends on
which cases follow the first one, but neither on their order nor on how often one is repeated.
-/

namespace SwitchHoist

variable {equivalent : Equivalence}

/-! ## What a case is left with -/

namespace Follower

/-- What a step leaves of a case is determined by the case and the statement that moves. -/
theorem Step.unique {taken : Names} {s t t' : Stmt} {f g g' : Follower}
    (h : Step equivalent taken s t f g) (h' : Step equivalent taken s t' f g') : g = g' := by
  obtain ⟨value, rest, renames⟩ := g
  obtain ⟨value', rest', renames'⟩ := g'
  have hvalue : value = value' := h.value.trans h'.value.symm
  have hrest : t :: rest = t' :: rest' := h.rest.symm.trans h'.rest
  obtain ⟨rfl, rfl⟩ := List.cons.inj hrest
  have hrenames : renames = renames' := h.renames.trans h'.renames.symm
  rw [hvalue, hrenames]

/-- What a run leaves of a case is determined by the case and the statements that move. -/
theorem Run.unique {taken : Names} {b : Block} {f g g' : Follower}
    (h : Run equivalent taken b f g) (h' : Run equivalent taken b f g') : g = g' := by
  induction h with
  | done =>
      cases h'
      rfl
  | step hstep _ ih =>
      cases h' with
      | step hstep' hrun' =>
          cases hstep.unique hstep'
          exact ih hrun'

end Follower

theorem eq_map_of_forall₂ {α β : Type} {R : α → β → Prop} {f : α → β} {xs : List α} {ys : List β}
    (h : List.Forall₂ R xs ys) (hf : ∀ x ∈ xs, ∀ y, R x y → y = f x) : ys = xs.map f := by
  induction h with
  | nil => rfl
  | cons hxy _ ih =>
      rw [List.forall_mem_cons] at hf
      rw [List.map_cons, hf.1 _ hxy, ih hf.2]

/-! ## The longest front that can be taken -/

namespace PrefixContext

/-- Statements of the first case may all move, and every other case can give up statements for
them. -/
structure CanTake (ctx : PrefixContext) (taken : Names) (front : Block)
    (others : List Follower) : Prop where
  may : ctx.MayAll taken front
  runs : ∀ f ∈ others, ∃ g, Follower.Run ctx.equivalent taken front f g

variable {ctx : PrefixContext}

/-- If statements can be taken, the first of them can, and behind it the others. -/
theorem CanTake.exists_take {taken : Names} {s : Stmt} {front : Block} {others : List Follower}
    (h : ctx.CanTake taken (s :: front) others) :
    ∃ others', ctx.take taken s others = .ok (some (taken ++ s.declared, others')) ∧
      ctx.CanTake (taken ++ s.declared) front others' := by
  obtain ⟨⟨hmay, hmays⟩, hruns⟩ := h
  have hsteps : ∀ f ∈ others, ∃ f', (∃ t, Follower.Step ctx.equivalent taken s t f f') ∧
      ∃ g, Follower.Run ctx.equivalent (taken ++ s.declared) front f' g := by
    intro f hf
    obtain ⟨g, hrun⟩ := hruns f hf
    cases hrun with
    | step hstep hrun => exact ⟨_, ⟨_, hstep⟩, g, hrun⟩
  obtain ⟨others', hothers⟩ := exists_forall₂_left_iff.mpr hsteps
  obtain ⟨hothers, hruns'⟩ := forall₂_and_right.mp hothers
  exact ⟨others', take_eq_some_iff.mpr ⟨hmay, rfl, hothers⟩, hmays, hruns'⟩

/-- A run takes as many statements as can be taken. -/
theorem split_longest : (b : Block) → {taken : Names} → {others : List Follower} → {r : Split} →
    ctx.split taken b others = .ok r → {front : Block} → front <+: b →
    ctx.CanTake taken front others → front.length ≤ r.hoisted.length
  | _, _, _, _, _, [], _, _ => Nat.zero_le _
  | [], _, _, _, _, s :: front, hfront, _ => by
      cases List.prefix_nil.mp hfront
  | s' :: rest, taken, others, r, h, s :: front, hfront, hcan => by
      obtain ⟨rfl, hbehind⟩ := List.cons_prefix_cons.mp hfront
      obtain ⟨others', htake, hcan⟩ := hcan.exists_take
      simp only [split, bind_eq_ok_iff] at h
      obtain ⟨result, hresult, h⟩ := h
      cases htake.symm.trans hresult
      simp only [bind_eq_ok_iff, Except.ok.injEq] at h
      obtain ⟨r', hsplit, rfl⟩ := h
      exact Nat.succ_le_succ (split_longest rest hsplit hbehind hcan)

/-- Whether statements can be taken depends on which cases there are besides the first, and for
what is pinned it counts which statements it allows. -/
theorem CanTake.of_subset {pinned pinned' : Pinned} {live taken : Names} {front : Block}
    {others again : List Follower} (hallows : ∀ s, pinned.allows s = pinned'.allows s)
    (hsubset : again ⊆ others) (h : CanTake ⟨equivalent, pinned, live⟩ taken front others) :
    CanTake ⟨equivalent, pinned', live⟩ taken front again where
  may := by
    have hmay := h.may
    clear h
    induction front generalizing taken with
    | nil => trivial
    | cons s front ih =>
        obtain ⟨⟨hallowed, hlive, htaken⟩, hmays⟩ := hmay
        exact ⟨⟨(hallows s).symm.trans hallowed, hlive, htaken⟩, ih hmays⟩
  runs := fun f hf => h.runs f (hsubset hf)

end PrefixContext

/-- What the cases pin down does not depend on their order. -/
theorem Pinned.allows_ofSwitch_congr (scrutinee : Expr) {cases again : List Case}
    (h : ∀ c, c ∈ again ↔ c ∈ cases) (s : Stmt) :
    (ofSwitch scrutinee cases).allows s = (ofSwitch scrutinee again).allows s := by
  have hfunctions : ∀ f, f ∈ (ofSwitch scrutinee cases).functions ↔
      f ∈ (ofSwitch scrutinee again).functions := by
    intro f
    simp only [ofSwitch, List.mem_flatMap, h]
  rw [Bool.eq_iff_iff, allows_iff, allows_iff]
  simp only [hfunctions]
  rfl

/-- The prefix of a switch is the longest front of the first case that can be taken from all
cases. -/
theorem hoistPrefix_longest {live : Names} {scrutinee : Expr} {first : Case}
    {others cases' : List Case} {hoisted : Block}
    (h : hoistPrefix equivalent live scrutinee (first :: others) = .ok (hoisted, cases')) :
    let ctx : PrefixContext := ⟨equivalent, Pinned.ofSwitch scrutinee (first :: others), live⟩
    hoisted <+: first.body ∧ ctx.CanTake [] hoisted (others.map Follower.ofCase) ∧
      ∀ front, front <+: first.body → ctx.CanTake [] front (others.map Follower.ofCase) →
        front.length ≤ hoisted.length := by
  simp only [hoistPrefix, bind_eq_ok_iff, Except.ok.injEq, Prod.mk.injEq] at h
  obtain ⟨r, hsplit, rfl, -⟩ := h
  obtain ⟨hfirst, hmay, hruns⟩ := PrefixContext.split_eq_ok first.body hsplit
  refine ⟨⟨r.first, hfirst.symm⟩, ⟨hmay, exists_forall₂_left_iff.mp ⟨r.others, hruns⟩⟩, ?_⟩
  intro front hfront hcan
  exact PrefixContext.split_longest first.body hsplit hfront hcan

/-- Switches with the same first case and the same cases behind it, in whatever order, have the
same prefix. -/
theorem hoistPrefix_hoisted_eq {live : Names} {scrutinee : Expr} {first : Case}
    {others again cases' again' : List Case} {hoisted hoisted' : Block}
    (hmem : ∀ c, c ∈ again ↔ c ∈ others)
    (h : hoistPrefix equivalent live scrutinee (first :: others) = .ok (hoisted, cases'))
    (h' : hoistPrefix equivalent live scrutinee (first :: again) = .ok (hoisted', again')) :
    hoisted' = hoisted := by
  obtain ⟨hfront, hcan, hlongest⟩ := hoistPrefix_longest h
  obtain ⟨hfront', hcan', hlongest'⟩ := hoistPrefix_longest h'
  have hcases : ∀ c, c ∈ first :: again ↔ c ∈ first :: others := fun c => by
    rw [List.mem_cons, List.mem_cons, hmem]
  have hallows := Pinned.allows_ofSwitch_congr scrutinee hcases
  have hsubset : again ⊆ others := fun c => (hmem c).mp
  have hsubset' : others ⊆ again := fun c => (hmem c).mpr
  -- Either prefix can be taken in the other order, so neither is the longer one.
  have hle := hlongest' hoisted hfront (hcan.of_subset hallows (List.map_subset _ hsubset))
  have hle' := hlongest hoisted' hfront'
    (hcan'.of_subset (fun s => (hallows s).symm) (List.map_subset _ hsubset'))
  exact (List.prefix_of_prefix_length_le hfront' hfront hle').eq_of_length
    (Nat.le_antisymm hle' hle)

/-- Only the first case is distinguished.  Taking the prefix of a switch does the same for every
order of the cases behind the first one: the prefix and the rest of the first case stay what they
are, and the other cases are what they were left as before, in their new order.  The prefix stays
what it is even if cases are repeated. -/
theorem hoistPrefix_case_order (live : Names) (scrutinee : Expr) (first : Case)
    (others : List Case) :
    ∃ hoisted rest, ∃ left : Case → Case,
      (∀ again, again.Perm others →
        hoistPrefix Stmt.alphaEq live scrutinee (first :: again) =
          .ok (hoisted, ⟨first.value, rest⟩ :: again.map left)) ∧
      ∀ again, (∀ c, c ∈ again ↔ c ∈ others) →
        hoistPrefix Stmt.alphaEq live scrutinee (first :: again) =
          .ok (hoisted, ⟨first.value, rest⟩ :: again.map left) := by
  obtain ⟨hoisted, cases', h⟩ := exists_hoistPrefix Stmt.alphaEq_faithful live scrutinee
    (List.cons_ne_nil first others)
  obtain ⟨_, _, rest, followers, hcases, hfirst, rfl, -, hruns⟩ := hoistPrefix_eq_ok h
  cases hcases
  have : Nonempty Follower := ⟨.ofCase first⟩
  choose! left hleft using exists_forall₂_left_iff.mp ⟨followers, hruns⟩
  have hmembers : ∀ again, (∀ c, c ∈ again ↔ c ∈ others) →
      hoistPrefix Stmt.alphaEq live scrutinee (first :: again) =
        .ok (hoisted, ⟨first.value, rest⟩ :: again.map fun c => (left c).toCase) := by
    intro again hmem
    obtain ⟨hoisted', again', h'⟩ := exists_hoistPrefix Stmt.alphaEq_faithful live scrutinee
      (List.cons_ne_nil first again)
    cases hoistPrefix_hoisted_eq hmem h h'
    obtain ⟨_, _, rest', followers', hcases', hfirst', rfl, -, hruns'⟩ := hoistPrefix_eq_ok h'
    cases hcases'
    have hrest : rest' = rest := List.append_cancel_left (hfirst'.symm.trans hfirst)
    -- Each case gives up the same statements as before, so it is left with the same ones.
    have hfollowers : followers' = again.map left :=
      eq_map_of_forall₂ hruns' fun c hc g hrun => hrun.unique (hleft c ((hmem c).mp hc))
    rw [h', hrest, hfollowers, List.map_map]
    rfl
  exact ⟨hoisted, rest, _, fun again hperm => hmembers again fun c => hperm.mem_iff, hmembers⟩

/-- The first case itself may not change places: the prefix declares its names. -/
example :
    hoistPrefix Stmt.alphaEq [] (.variable "x")
        [⟨some ⟨.number, "0", none⟩, [.declareUntyped ["a"] none]⟩,
          ⟨none, [.declareUntyped ["b"] none]⟩] =
        .ok ([.declareUntyped ["a"] none], [⟨some ⟨.number, "0", none⟩, []⟩, ⟨none, []⟩]) ∧
      hoistPrefix Stmt.alphaEq [] (.variable "x")
        [⟨none, [.declareUntyped ["b"] none]⟩,
          ⟨some ⟨.number, "0", none⟩, [.declareUntyped ["a"] none]⟩] =
        .ok ([.declareUntyped ["b"] none], [⟨none, []⟩, ⟨some ⟨.number, "0", none⟩, []⟩]) := by
  exact ⟨rfl, rfl⟩

end SwitchHoist
