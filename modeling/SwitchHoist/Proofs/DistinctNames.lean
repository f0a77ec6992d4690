import Mathlib.Data.List.Nodup
import SwitchHoist.Proofs.CommonStart
import SwitchHoist.Proofs.NamesKept
import SwitchHoist.Proofs.OuterNames
import SwitchHoist.Proofs.Settled

/-!
# One run settles programs with distinct names

If no name is bound twice in a program and none is bound in one place and used from
outside in another, then no name ever keeps a statement from moving: no declared name is
in use where it would be declared, none was taken before, and no renaming is caught.  The
run on a switch then stops for a reason that does not depend on names, and renaming the
cases of the switches around it does not undo such a reason.
-/

namespace SwitchHoist

/-- No name is bound twice, and none is bound and also used from outside. -/
structure Block.Distinct (b : Block) : Prop where
  nodup : (Block.bound b).Nodup
  unused : ∀ x ∈ Block.bound b, x ∉ b.freeNames

/-! ## Scopes bind bound names only -/

section Walk

variable {x : String} {o : Occurrence}

theorem Occurrence.binds_of_mem_map {access : Access} {scopes : Scopes} {xs : List String}
    (ho : o ∈ xs.map fun y => (⟨y, access, scopes⟩ : Occurrence))
    (hx : o.scopes.binds x = true) : scopes.binds x = true := by
  obtain ⟨y, -, rfl⟩ := List.mem_map.mp ho
  exact hx

theorem Scopes.binds_bindAll_iff {names : Names} {scopes : Scopes} :
    (scopes.bindAll names).binds x = true ↔ scopes.binds x = true ∨ x ∈ names := by
  rw [Scopes.binds_bindAll, Bool.or_eq_true, List.contains_iff_mem, or_comm]

mutual

/-- What is bound around an occurrence is bound around the statement or inside it. -/
theorem Stmt.binds_walk : (s : Stmt) → {scopes : Scopes} → o ∈ (s.walk scopes).1 →
    o.scopes.binds x = true → scopes.binds x = true ∨ x ∈ s.bound
  | .expr _, _, ho, hx => Or.inl (Occurrence.binds_of_mem_map ho hx)
  | .assign _ _, _, ho, hx => by
      rcases List.mem_append.mp ho with ho | ho
      · exact Or.inl (Occurrence.binds_of_mem_map ho hx)
      · exact Or.inl (Occurrence.binds_of_mem_map ho hx)
  | .declare _ none, _, ho, _ => nomatch ho
  | .declare _ (some _), _, ho, hx => Or.inl (Occurrence.binds_of_mem_map ho hx)
  | .define _ params returns body, scopes, ho, hx => by
      have hbody := Block.binds_walk body ho hx
      rw [Scopes.binds_push, Scopes.binds_bindAll_iff, Scopes.binds_push, or_assoc] at hbody
      rw [Stmt.bound_define, List.mem_append]
      exact hbody
  | .branch _ body, _, ho, hx => by
      rcases List.mem_append.mp ho with ho | ho
      · exact Or.inl (Occurrence.binds_of_mem_map ho hx)
      · have hbody := Block.binds_walk body ho hx
        rw [Scopes.binds_push] at hbody
        exact hbody
  | .switch _ cases, _, ho, hx => by
      rcases List.mem_append.mp ho with ho | ho
      · exact Or.inl (Occurrence.binds_of_mem_map ho hx)
      · exact Case.binds_walk cases ho hx
  | .loop pre _ post body, scopes, ho, hx => by
      simp only [Stmt.walk, Block.walk_snd, Scopes.pop_bindAll_push, List.mem_append] at ho
      rw [Stmt.bound_loop, List.mem_append, List.mem_append]
      have hafter : (scopes.push.bindAll (Block.declared pre)).binds x = true →
          scopes.binds x = true ∨ x ∈ Block.bound pre := by
        rw [Scopes.binds_bindAll_iff, Scopes.binds_push]
        exact Or.imp_right Block.mem_bound_of_declared
      rcases ho with ((ho | ho) | ho) | ho
      · exact (Block.binds_walk pre ho hx).imp_right fun hx => Or.inl (Or.inl hx)
      · have hx := hafter (Occurrence.binds_of_mem_map ho hx)
        exact hx.imp_right fun hx => Or.inl (Or.inl hx)
      · rcases Block.binds_walk post ho hx with hx | hx
        · exact (hafter hx).imp_right fun hx => Or.inl (Or.inl hx)
        · exact Or.inr (Or.inl (Or.inr hx))
      · rcases Block.binds_walk body ho hx with hx | hx
        · exact (hafter hx).imp_right fun hx => Or.inl (Or.inl hx)
        · exact Or.inr (Or.inr hx)
  | .break, _, ho, _ => nomatch ho
  | .continue, _, ho, _ => nomatch ho
  | .leave, _, ho, _ => nomatch ho
  | .block body, scopes, ho, hx => by
      have ho : o ∈ (Block.walk body scopes.push).1 := ho
      have hbody := Block.binds_walk body ho hx
      rw [Scopes.binds_push] at hbody
      exact hbody

theorem Block.binds_walk : (b : List Stmt) → {scopes : Scopes} → o ∈ (Block.walk b scopes).1 →
    o.scopes.binds x = true → scopes.binds x = true ∨ x ∈ Block.bound b
  | [], _, ho, _ => nomatch ho
  | s :: rest, _, ho, hx => by
      simp only [Block.walk, Stmt.walk_snd, List.mem_append] at ho
      rw [Block.bound_cons, List.mem_append]
      rcases ho with ho | ho
      · exact (Stmt.binds_walk s ho hx).imp_right Or.inl
      · rcases Block.binds_walk rest ho hx with hx | hx
        · rw [Scopes.binds_bindAll_iff] at hx
          exact hx.imp_right fun hx => Or.inl (Stmt.mem_bound_of_declared hx)
        · exact Or.inr (Or.inr hx)

theorem Case.binds_walk : (cases : List Case) → {scopes : Scopes} →
    o ∈ (Case.walk cases scopes).1 → o.scopes.binds x = true →
    scopes.binds x = true ∨ x ∈ Case.bound cases
  | [], _, ho, _ => nomatch ho
  | ⟨_, body⟩ :: rest, _, ho, hx => by
      simp only [Case.walk, Block.walk_snd, Scopes.pop_bindAll_push, List.mem_append] at ho
      rw [Case.bound_cons, List.mem_append]
      rcases ho with ho | ho
      · exact (Block.binds_walk body ho hx).imp_right Or.inl
      · exact (Case.binds_walk rest ho hx).imp_right Or.inr

end

/-- A renaming keeps all references if its new names are not bound in the statements and no
reserved name is used there. -/
theorem Renaming.preserves_of_fresh {ρ : Renaming} {reserved : Names} {b : Block}
    (htargets : ∀ x y, ρ.target? x = some y → y ∉ Block.bound b)
    (hreserved : ∀ x ∈ reserved, x ∉ b.freeNames) : ρ.preserves reserved b = true := by
  refine List.all_eq_true.mpr fun o ho => ?_
  rw [Renaming.keeps, Bool.or_eq_true]
  -- Only free occurrences can be caught, and only by a scope inside the statements.
  by_cases hbound : o.scopes.binds o.name = true
  · exact Or.inl hbound
  · have hfree : o.name ∈ b.freeNames := by
      refine Block.mem_freeNames.mpr ⟨o, ho, ?_, rfl⟩
      simpa [Occurrence.isFree] using hbound
    refine Or.inr ?_
    split
    · next y htarget =>
        by_contra hcaught
        have hy : o.scopes.binds y = true := by simpa using hcaught
        rcases Block.binds_walk b ho hy with hy | hy
        · rw [Scopes.binds_initial] at hy
          cases hy
        · exact htargets o.name y htarget hy
    · next =>
        rw [Bool.not_eq_true', ← Bool.not_eq_true, List.contains_iff_mem]
        exact fun hmem => hreserved o.name hmem hfree

end Walk

/-! ## One switch -/

theorem Case.LeftBehind.functions_eq {hoisted : Block} {c c' : Case} (h : c.LeftBehind hoisted c')
    (hhoisted : Block.functions hoisted = []) :
    Block.functions c.body = Block.functions c'.body := by
  obtain ⟨own, rest, hbody, hown, hrest⟩ := h.body
  have hnone : Block.functions own = [] := hown.functions_eq.trans hhoisted
  rw [Block.functions] at hnone
  rw [hbody, ← hrest.functions_eq, Block.functions, List.filterMap_append, hnone]
  rfl

theorem Case.bound_sublist {cases : List Case} {c : Case} (hc : c ∈ cases) :
    (Block.bound c.body).Sublist (Case.bound cases) := by
  induction cases with
  | nil => cases hc
  | cons c' cases ih =>
      rw [Case.bound_cons]
      rcases List.mem_cons.mp hc with rfl | hc
      · exact List.sublist_append_left _ _
      · exact (ih hc).trans (List.sublist_append_right _ _)

/-- The next statement of a case goes where a statement of the first case moves, if it is
the same and the names of the first case are new to the case. -/
theorem Follower.Run.exists_step {hoisted : Block} {s t' : Stmt} {c : Case} {g : Follower}
    {rest' : Block} (hrun : Run Stmt.alphaEq [] hoisted (ofCase c) g)
    (hg : g.toCase.body = t' :: rest') (hequal : s.Matches Eq t')
    (hbound : ∀ x ∈ Block.declared hoisted ++ s.declared, x ∉ Block.bound c.body)
    (hfree : ∀ x ∈ Block.declared hoisted ++ s.declared, x ∉ Block.freeNames c.body) :
    ∃ g' t, Step Stmt.alphaEq (Block.declared hoisted) s t g g' := by
  obtain ⟨-, ⟨front, hbody⟩, htargets⟩ := hrun.rest
  obtain ⟨value, body, ρ⟩ := g
  cases body with
  | nil => cases hg
  | cons t rest =>
      cases hg
      have hbody : c.body = front ++ t :: rest := hbody
      have halpha : s.alphaEq (ρ.stmt t) = true := (Stmt.alphaEq_iff s _).mpr hequal
      obtain ⟨hform, harity⟩ := Stmt.alphaEq_faithful s _ halpha
      rw [Renaming.isDeclaration_stmt] at hform
      rw [Renaming.declared_stmt] at harity
      refine ⟨⟨value, rest, ρ.insertAll t.declared s.declared⟩, t, rfl, rfl, halpha, hform, harity,
        rfl, fun _ => ?_⟩
      rw [hbody, Block.bound_append, Block.bound_cons] at hbound
      refine Renaming.preserves_of_fresh (fun x y hxy hy => ?_) fun x hx hmem => ?_
      · have hnew : y ∈ Block.declared hoisted ++ s.declared := by
          rw [List.mem_append]
          rcases Renaming.target?_insertAll hxy with hxy | hy
          · rcases htargets x y hxy with hnone | hy
            · cases hnone
            · exact Or.inl hy
          · exact Or.inr hy
        exact hbound y hnew (List.mem_append_right _ (List.mem_append_right _ hy))
      · -- What is used behind declarations with other names is used in the whole case.
        have hnot := hbound x hx
        rw [List.mem_append, List.mem_append, not_or, not_or] at hnot
        refine hfree x hx ?_
        rw [hbody, Block.mem_freeNames_append, Block.mem_freeNames_cons]
        exact Or.inr ⟨fun h => hnot.1 (Block.mem_bound_of_declared h),
          Or.inr ⟨fun h => hnot.2.1 (Stmt.mem_bound_of_declared h), hmem⟩⟩

/-- A function that what is left of the cases does not define is not pinned. -/
theorem Pinned.not_mem_functions {hoisted : Block} {e : Expr} {cases cases' : List Case}
    (hleft : List.Forall₂ (Case.LeftBehind hoisted) cases cases')
    (hhoisted : Block.functions hoisted = []) {f : String}
    (hf : ∀ c ∈ cases', f ∉ Block.functions c.body) :
    f ∉ (Pinned.ofSwitch e cases).functions := by
  intro hmem
  obtain ⟨c, hc, hfc⟩ := List.mem_flatMap.mp hmem
  obtain ⟨c', hc', hbehind⟩ := exists_mem_left_of_forall₂ hleft.flip hc
  rw [Case.LeftBehind.functions_eq hbehind hhoisted] at hfc
  exact hf c' hc' hfc

/-- What the pass leaves of a switch with distinct names has no common start. -/
theorem hoistPrefix_not_common {live : Names} {e : Expr} {cases cases' : List Case}
    {hoisted : Block} (h : hoistPrefix Stmt.alphaEq live e cases = .ok (hoisted, cases'))
    (hnodup : ∀ c ∈ cases, ∀ s ∈ c.body, s.declared.Nodup) (hdistinct : (Case.bound cases).Nodup)
    (hunused : ∀ x ∈ Case.bound cases, ¬(Stmt.switch e cases).Uses x ∧ x ∉ live) :
    ¬Case.Common e cases' := by
  have hleft := hoistPrefix_leftBehind h hnodup
  have hfunctions := hoistPrefix_functions h
  cases cases with
  | nil => cases h
  | cons first others =>
      simp only [hoistPrefix, bind_eq_ok_iff, Except.ok.injEq, Prod.mk.injEq] at h
      obtain ⟨⟨hoisted, body, followers⟩, hsplit, rfl, rfl⟩ := h
      obtain ⟨hfirst, -, hruns⟩ := PrefixContext.split_eq_ok _ hsplit
      rw [List.forall₂_map_left_iff] at hruns
      rw [Case.bound_cons] at hdistinct hunused
      intro hcommon
      cases hcommon with
      | @intro _ s rest _ hdefined hassigns hcalled hothers =>
          have hfirst : first.body = hoisted ++ s :: rest := hfirst
          have hnew : Block.bound first.body =
              Block.bound hoisted ++ (s.bound ++ Block.bound rest) := by
            rw [hfirst, Block.bound_append, Block.bound_cons]
          have hdeclared : ∀ x ∈ s.declared, x ∈ Block.bound first.body := by
            intro x hx
            rw [hnew]
            exact List.mem_append_right _ (List.mem_append_left _ (Stmt.mem_bound_of_declared hx))
          have hnames : ∀ x ∈ Block.declared hoisted ++ s.declared, x ∈ Block.bound first.body := by
            refine List.forall_mem_append.mpr ⟨fun x hx => ?_, hdeclared⟩
            rw [hnew]
            exact List.mem_append_left _ (Block.mem_bound_of_declared hx)
          -- Suppose the cases left behind start with the same statement. Then the run could have
          -- taken it: it may move, and no case refuses to give it up.
          have hmay : PrefixContext.May ⟨Stmt.alphaEq, Pinned.ofSwitch e (first :: others), live⟩
              (Block.declared hoisted) s := by
            refine ⟨Pinned.allows_iff.mpr ⟨hdefined, fun x hx hxe => ?_, fun x hx => ?_,
              fun f hf => ?_⟩, fun x hx => ?_, fun x hx hmem => ?_⟩
            · exact (hunused x (List.mem_append_left _ (hdeclared x hx))).1 (Or.inl hxe)
            · exact hassigns x (Stmt.mem_written.mp hx)
            · exact Pinned.not_mem_functions hleft hfunctions (List.forall_mem_cons.mpr (hcalled f hf))
            · exact (hunused x (List.mem_append_left _ (hdeclared x hx))).2
            · have hown := List.disjoint_of_nodup_append (hnew ▸ hdistinct.of_append_left)
              exact hown (Block.mem_bound_of_declared hmem)
                (List.mem_append_left _ (Stmt.mem_bound_of_declared hx))
          have hsteps : ∀ g ∈ followers, ∃ g' t,
              Follower.Step Stmt.alphaEq (Block.declared hoisted) s t g g' := by
            intro g hg
            obtain ⟨c, hc, hrun⟩ := exists_mem_left_of_forall₂ hruns hg
            obtain ⟨t', rest', hbody, hequal⟩ := hothers g.toCase (List.mem_map_of_mem hg)
            refine hrun.exists_step hbody hequal (fun x hx hmem => ?_) fun x hx hmem => ?_
            · exact List.disjoint_of_nodup_append hdistinct (hnames x hx) ((Case.bound_sublist hc).mem hmem)
            · refine (hunused x (List.mem_append_left _ (hnames x hx))).1 (Or.inr ?_)
              exact Case.uses_iff.mpr
                ⟨c, List.mem_cons_of_mem _ hc, Block.mem_freeNames_iff.mp hmem⟩
          obtain ⟨followers', htaken⟩ := exists_forall₂_left_iff.mpr hsteps
          exact PrefixContext.split_stops _ hsplit rfl _
            (PrefixContext.take_eq_some_iff.mpr ⟨hmay, rfl, htaken⟩)

/-- A prefix and what it leaves behind have no common starts that the cases did not have. -/
theorem Case.Each.apart_hoistPrefix {live : Names} {e : Expr} {cases cases' : List Case}
    {hoisted : Block} (h : SwitchHoist.hoistPrefix Stmt.alphaEq live e cases = .ok (hoisted, cases'))
    (hnodup : ∀ c ∈ cases, ∀ s ∈ c.body, s.declared.Nodup) (hapart : Case.Each Stmt.Apart cases) :
    Block.Each Stmt.Apart hoisted ∧ Case.Each Stmt.Apart cases' := by
  have hleft := hoistPrefix_leftBehind h hnodup
  obtain ⟨first, others, rest, followers, rfl, hfirst, -, -, -⟩ := hoistPrefix_eq_ok h
  rw [Case.each_iff] at hapart ⊢
  constructor
  · have hbody := hapart first (List.mem_cons_self ..)
    rw [hfirst, Block.each_append] at hbody
    exact hbody.1
  · intro c' hc'
    obtain ⟨c, hc, hbehind⟩ := exists_mem_left_of_forall₂ hleft hc'
    obtain ⟨own, rest, hbody, -, hmatches⟩ := hbehind.body
    have hrest := hapart c hc
    rw [hbody, Block.each_append] at hrest
    exact hmatches.each_apart (Matching.OneToOne.eq.after own hoisted) hrest.2

/-! ## Distinct names inside -/

/-- No name is bound twice in a statement, and none is bound and also used from outside. -/
structure Stmt.Distinct (s : Stmt) : Prop where
  nodup : s.bound.Nodup
  unused : ∀ x ∈ s.bound, ¬s.Uses x

theorem Block.Distinct.not_uses {b : Block} (h : b.Distinct) {x : String}
    (hx : x ∈ Block.bound b) : ¬Block.Uses x b := by
  rw [← Block.mem_freeNames_iff]
  exact h.unused x hx

section Cons

variable {s : Stmt} {rest : Block}

theorem Block.Distinct.not_mem_right (h : Block.Distinct (s :: rest)) {x : String}
    (hx : x ∈ s.bound) : x ∉ Block.bound rest := by
  have hnodup := h.nodup
  rw [Block.bound_cons] at hnodup
  exact fun hmem => List.disjoint_of_nodup_append hnodup hx hmem

theorem Block.Distinct.head (h : Block.Distinct (s :: rest)) : s.Distinct where
  nodup := by
    have hnodup := h.nodup
    rw [Block.bound_cons] at hnodup
    exact hnodup.of_append_left
  unused := by
    intro x hx huses
    have hmem : x ∈ Block.bound (s :: rest) := by
      rw [Block.bound_cons]
      exact List.mem_append_left _ hx
    exact h.not_uses hmem (Or.inl huses)

theorem Block.Distinct.tail (h : Block.Distinct (s :: rest)) : Block.Distinct rest where
  nodup := by
    have hnodup := h.nodup
    rw [Block.bound_cons] at hnodup
    exact hnodup.of_append_right
  unused := by
    intro x hx hfree
    have hmem : x ∈ Block.bound (s :: rest) := by
      rw [Block.bound_cons]
      exact List.mem_append_right _ hx
    refine h.not_uses hmem (Or.inr ⟨fun hdeclared => ?_, Block.mem_freeNames_iff.mp hfree⟩)
    exact h.not_mem_right (Stmt.mem_bound_of_declared hdeclared) hx

end Cons

/-- The names in a block of a statement are distinct if those in the statement are, where a
name that the block uses is used by the statement or bound in front of the block. -/
theorem Block.Distinct.of_sublist {s : Stmt} (h : s.Distinct) (own : List String) {b : Block}
    (hsub : (own ++ Block.bound b).Sublist s.bound)
    (huses : ∀ x, Block.Uses x b → x ∈ own ∨ s.Uses x) : b.Distinct where
  nodup := (h.nodup.sublist hsub).of_append_right
  unused := by
    intro x hx hfree
    rcases huses x (Block.mem_freeNames_iff.mp hfree) with hown | hused
    · exact List.disjoint_of_nodup_append (h.nodup.sublist hsub) hown hx
    · exact h.unused x (hsub.subset (List.mem_append_right _ hx)) hused

theorem Stmt.Distinct.blocks {s : Stmt} (h : s.Distinct) : ∀ b ∈ s.blocks, Block.Distinct b := by
  cases s with
  | define name params returns body =>
      have hbody : Block.Distinct body := by
        refine .of_sublist h _ (List.Sublist.refl _) fun x hx => ?_
        by_cases hown : x ∈ TypedName.names (params ++ returns)
        · exact Or.inl hown
        · exact Or.inr ⟨hown, hx⟩
      exact List.forall_mem_singleton.mpr hbody
  | branch c body =>
      have hbody : Block.Distinct body :=
        .of_sublist h [] (List.Sublist.refl _) fun x hx => Or.inr (Or.inr hx)
      exact List.forall_mem_singleton.mpr hbody
  | switch e cases =>
      refine List.forall_mem_map.mpr fun c hc => ?_
      refine .of_sublist h [] (Case.bound_sublist hc) fun x hx => Or.inr (Or.inr ?_)
      exact Case.uses_iff.mpr ⟨c, hc, hx⟩
  | loop pre c post body =>
      -- What the first block declares is bound in front of the two others.
      have hinner : ∀ x, (x ∈ c.variableNames ∨ Block.Uses x post ∨ Block.Uses x body) →
          x ∈ Block.bound pre ∨ (Stmt.loop pre c post body).Uses x := by
        intro x hx
        by_cases hown : x ∈ Block.declared pre
        · exact Or.inl (Block.mem_bound_of_declared hown)
        · exact Or.inr (Or.inr ⟨hown, hx⟩)
      have hbound := Stmt.bound_loop pre c post body
      have hfirst := List.sublist_append_left (Block.bound pre) (Block.bound post)
      have hpre : Block.Distinct pre := by
        refine .of_sublist h [] ?_ fun x hx => Or.inr (Or.inl hx)
        rw [hbound]
        exact hfirst.trans (List.sublist_append_left _ _)
      have hpost : Block.Distinct post := by
        refine .of_sublist h (Block.bound pre) ?_ fun x hx => hinner x (Or.inr (Or.inl hx))
        rw [hbound]
        exact List.sublist_append_left _ _
      have hbody : Block.Distinct body := by
        refine .of_sublist h (Block.bound pre) ?_ fun x hx => hinner x (Or.inr (Or.inr hx))
        rw [hbound]
        exact hfirst.append (List.Sublist.refl _)
      exact List.forall_mem_cons.mpr ⟨hpre, List.forall_mem_cons.mpr
        ⟨hpost, List.forall_mem_singleton.mpr hbody⟩⟩
  | block body =>
      have hbody : Block.Distinct body :=
        .of_sublist h [] (List.Sublist.refl _) fun x hx => Or.inr hx
      exact List.forall_mem_singleton.mpr hbody
  | _ => exact fun _ hb => absurd hb List.not_mem_nil

/-- A declaration declares distinct names where all names are distinct. -/
theorem Stmt.Distinct.each_nodup {s : Stmt} (h : s.Distinct) :
    s.Each fun t => t.declared.Nodup := by
  intro t ht
  -- What one statement binds is part of what all of them bind.
  have hbinders := (List.nodup_flatMap.mp h.nodup).1 t ht
  cases t with
  | declare vars e => exact hbinders
  | _ => exact List.nodup_nil

/-- The pass inside a statement keeps names distinct. -/
theorem Stmt.Distinct.hoists {s s' : Stmt} (h : s.Distinct) (hs : s.Hoists Stmt.alphaEq s') :
    s'.Distinct where
  nodup := h.nodup.sublist hs.bound
  unused := by
    intro x hx huses
    exact h.unused x (hs.bound.subset hx) (hs.uses_iff.mp huses)

/-! ## The whole pass -/

/-- A switch with distinct names has no common start behind the pass, neither in the prefix
nor in what is left. -/
theorem Stmt.Distinct.hoistOut {s : Stmt} (h : s.Distinct) {after front : Block} {live : Names}
    (hs : s.hoistOut Stmt.alphaEq after live = .ok front)
    (hlive : ∀ e cases, s = .switch e cases → ∀ x ∈ s.bound, x ∉ Block.freeNames after ++ live)
    (hblocks : ∀ b ∈ s.blocks, Block.Each Stmt.Apart b) : Block.Each Stmt.Apart front := by
  rcases Stmt.hoistOut_eq_ok hs with
    ⟨hother, rfl⟩ | ⟨e, cases, hoisted, cases', rfl, hhoist, rfl⟩
  · have heach := Stmt.each_iff.mpr ⟨Stmt.apart_of_ne_switch hother, hblocks⟩
    exact Block.each_cons.mpr ⟨heach, Block.each_nil⟩
  · have heach := h.each_nodup
    rw [Stmt.each_switch, Case.each_iff] at heach
    have hnodup : ∀ c ∈ cases, ∀ s ∈ c.body, s.declared.Nodup :=
      fun c hc s hs => ((heach.2 c hc).mem hs).head
    have hunused : ∀ x ∈ Case.bound cases, ¬(Stmt.switch e cases).Uses x ∧
        x ∉ Block.freeNames after ++ live :=
      fun x hx => ⟨h.unused x hx, hlive e cases rfl x hx⟩
    have hcommon := hoistPrefix_not_common hhoist hnodup h.nodup hunused
    have hcases : Case.Each Stmt.Apart cases := Case.each_iff.mpr (List.forall_mem_map.mp hblocks)
    obtain ⟨hhoisted, hcases'⟩ := hcases.apart_hoistPrefix hhoist hnodup
    have hswitch := Stmt.each_switch.mpr ⟨Stmt.apart_switch_iff.mpr hcommon, hcases'⟩
    exact Block.each_append.mpr ⟨hhoisted, Block.each_cons.mpr ⟨hswitch, Block.each_nil⟩⟩

mutual

theorem Stmt.Hoists.apart : {s s' : Stmt} → s.Hoists Stmt.alphaEq s' → s.Distinct →
    ∀ b ∈ s'.blocks, Block.Each Stmt.Apart b
  | .define _ _ _ body, _, .define _ _ _ hbody, hs => by
      have hdistinct : Block.Distinct body := List.forall_mem_singleton.mp hs.blocks
      exact List.forall_mem_singleton.mpr (hbody.apart hdistinct nofun)
  | .branch _ body, _, .branch _ hbody, hs => by
      have hdistinct : Block.Distinct body := List.forall_mem_singleton.mp hs.blocks
      exact List.forall_mem_singleton.mpr (hbody.apart hdistinct nofun)
  | .switch _ cases, _, .switch _ hcases, hs => by
      have hdistinct : ∀ c ∈ cases, Block.Distinct c.body := List.forall_mem_map.mp hs.blocks
      exact List.forall_mem_map.mpr (Case.each_iff.mp (hcases.apart hdistinct))
  | .loop pre c post body, _, .loop _ hpre hpost hbody, hs => by
      have hblocks := hs.blocks
      simp only [Stmt.blocks, List.forall_mem_cons] at hblocks
      obtain ⟨hdpre, hdpost, hdbody, -⟩ := hblocks
      -- A name that is live behind the first block and bound in it is declared there.
      have hlive : ∀ x ∈ Block.bound pre, x ∈ loopNames c post body → x ∈ Block.declared pre := by
        intro x hx hmem
        have hbound : x ∈ (Stmt.loop pre c post body).bound := by
          rw [Stmt.bound_loop]
          exact List.mem_append_left _ (List.mem_append_left _ hx)
        by_contra hnot
        refine hs.unused x hbound (Or.inr ⟨hnot, ?_⟩)
        rw [loopNames, List.mem_append, List.mem_append, Block.mem_freeNames_iff,
          Block.mem_freeNames_iff, or_assoc] at hmem
        exact hmem
      exact List.forall_mem_cons.mpr ⟨hpre.apart hdpre hlive, List.forall_mem_cons.mpr
        ⟨hpost.apart hdpost nofun, List.forall_mem_singleton.mpr (hbody.apart hdbody nofun)⟩⟩
  | .block body, _, .block hbody, hs => by
      have hdistinct : Block.Distinct body := List.forall_mem_singleton.mp hs.blocks
      exact List.forall_mem_singleton.mpr (hbody.apart hdistinct nofun)
  | _, _, .same hblocks, _ => by
      rw [hblocks]
      exact fun _ hb => absurd hb List.not_mem_nil

/-- A block with distinct names has no common start behind the pass.  A live name that is
bound in the block is one that the block declares in its scope. -/
theorem Block.Hoists.apart : {live : Names} → {b b' : List Stmt} →
    Block.Hoists Stmt.alphaEq live b b' → Block.Distinct b →
    (∀ x ∈ Block.bound b, x ∈ live → x ∈ Block.declared b) → Block.Each Stmt.Apart b'
  | _, _, _, .nil, _, _ => Block.each_nil
  | _, s :: rest, _, .cons hs hfront hrest, hdistinct, hlive => by
      have hbound := Block.bound_cons s rest
      have hsub := hs.bound.subset
      have hinside := hs.apart hdistinct.head
      refine Block.each_append.mpr ⟨?_, ?_⟩
      · refine (hdistinct.head.hoists hs).hoistOut hfront (fun e cases heq x hx => ?_) hinside
        have hmem : x ∈ Block.bound (s :: rest) := hbound ▸ List.mem_append_left _ (hsub hx)
        have hnone : x ∉ s.declared := by
          rw [hs.resembles.declared_eq, heq]
          exact List.not_mem_nil
        -- A name bound inside a switch is declared by none of its neighbours, so it is used
        -- behind the switch by none of them.
        rw [List.mem_append, not_or]
        refine ⟨fun hfree => ?_, fun hxlive => ?_⟩
        · exact hdistinct.not_uses hmem (Or.inr ⟨hnone, Block.mem_freeNames_iff.mp hfree⟩)
        · rcases List.mem_append.mp (hlive x hmem hxlive) with hown | hown
          · exact hnone hown
          · exact hdistinct.not_mem_right (hsub hx) (Block.mem_bound_of_declared hown)
      · refine hrest.apart hdistinct.tail fun x hx hxlive => ?_
        have hmem : x ∈ Block.bound (s :: rest) := hbound ▸ List.mem_append_right _ hx
        rcases List.mem_append.mp (hlive x hmem hxlive) with hown | hown
        · exact absurd hx (hdistinct.not_mem_right (Stmt.mem_bound_of_declared hown))
        · exact hown

theorem Case.Hoists.apart : {cases cases' : List Case} → Case.Hoists Stmt.alphaEq cases cases' →
    (∀ c ∈ cases, Block.Distinct c.body) → Case.Each Stmt.Apart cases'
  | _, _, .nil, _ => Case.each_nil
  | _, _, .cons _ hbody hrest, hdistinct => by
      rw [List.forall_mem_cons] at hdistinct
      exact Case.each_cons.mpr ⟨hbody.apart hdistinct.1 nofun, hrest.apart hdistinct.2⟩

end

/-! ## Settled programs -/

/-- A switch that is ready has a common start. -/
theorem Case.Ready.common {live : Names} {e : Expr} {cases : List Case}
    (h : Case.Ready Stmt.alphaEq live e cases) : Case.Common e cases := by
  cases h with
  | @intro value s rest others hallowed hlive hothers =>
      obtain ⟨hdefined, -, hwritten, hcalled⟩ := Pinned.allows_iff.mp hallowed
      refine .intro hdefined (fun x hx => ?_) (fun f hf => ?_) fun c hc => ?_
      · exact hwritten x (Stmt.mem_written.mpr hx)
      · have hpinned := hcalled f hf
        simp only [Pinned.ofSwitch, List.flatMap_cons, List.mem_append, not_or] at hpinned
        exact ⟨hpinned.1, fun c hc hfc => hpinned.2 (List.mem_flatMap.mpr ⟨c, hc, hfc⟩)⟩
      · obtain ⟨t, rest', hbody, hstands⟩ := hothers c hc
        exact ⟨t, rest', hbody, (Stmt.alphaEq_iff s t).mp hstands.equal⟩

theorem Stmt.Apart.stays {s : Stmt} (h : s.Apart) (live : Names) : s.Stays Stmt.alphaEq live :=
  fun e cases heq hready => h e cases heq hready.common

mutual

/-- Without common starts a program is settled, whatever is live. -/
theorem Stmt.settled_of_apart : (s : Stmt) → s.Each Stmt.Apart → s.Settled Stmt.alphaEq
  | .define _ _ _ body, h => Block.settled_of_apart body [] (Stmt.each_define.mp h).2
  | .branch _ body, h => Block.settled_of_apart body [] (Stmt.each_branch.mp h).2
  | .switch _ cases, h => Case.settled_of_apart cases (Stmt.each_switch.mp h).2
  | .loop pre c post body, h => by
      rw [Stmt.each_loop] at h
      exact ⟨Block.settled_of_apart pre _ h.2.1, Block.settled_of_apart post [] h.2.2.1,
        Block.settled_of_apart body [] h.2.2.2⟩
  | .block body, h => Block.settled_of_apart body [] (Stmt.each_block.mp h).2
  | .expr _, _ => trivial
  | .assign .., _ => trivial
  | .declare .., _ => trivial
  | .break, _ => trivial
  | .continue, _ => trivial
  | .leave, _ => trivial

theorem Block.settled_of_apart : (b : List Stmt) → (live : Names) → Block.Each Stmt.Apart b →
    Block.Settled Stmt.alphaEq b live
  | [], _, _ => trivial
  | s :: rest, live, h => by
      rw [Block.each_cons] at h
      exact ⟨Stmt.settled_of_apart s h.1, h.1.head.stays _, Block.settled_of_apart rest live h.2⟩

theorem Case.settled_of_apart : (cases : List Case) → Case.Each Stmt.Apart cases →
    Case.Settled Stmt.alphaEq cases
  | [], _ => trivial
  | ⟨_, body⟩ :: rest, h => by
      rw [Case.each_cons] at h
      exact ⟨Block.settled_of_apart body [] h.1, Case.settled_of_apart rest h.2⟩

end

/-- One run settles a program with distinct names. -/
theorem Block.Distinct.settled {b b' : Block} (h : b.Distinct)
    (hb : b.hoist Stmt.alphaEq = .ok b') : Block.Settled Stmt.alphaEq b' [] :=
  Block.settled_of_apart b' [] ((Block.hoists_of_eq_ok b hb).apart h nofun)

end SwitchHoist
