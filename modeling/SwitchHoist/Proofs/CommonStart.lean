import SwitchHoist.Proofs.CaseMeaning
import SwitchHoist.Proofs.EveryStatement
import SwitchHoist.Proofs.FreeNames

/-!
# Cases that start with the same statement

Whether the cases of a switch start with the same statement does not depend on how
variables are called, and neither does it whether this statement defines a function,
calls one that the cases define, or assigns a variable of the scrutinee.  So switches
whose cases start differently keep doing so when variables are renamed one to one.

What does depend on names is left out here: a name may be in use where it would be
declared, and a renaming may be caught.
-/

namespace SwitchHoist

/-! ## Matchings that are one to one -/

/-- No variable stands for two, on either side. -/
structure Matching.OneToOne (M : Matching) : Prop where
  left : ∀ {x x' y}, M x y → M x' y → x = x'
  right : ∀ {x y y'}, M x y → M x y' → y = y'

namespace Matching.OneToOne

variable {M : Matching}

theorem eq : OneToOne Eq where
  left := fun h h' => h.trans h'.symm
  right := fun h h' => h.symm.trans h'

theorem bind (h : M.OneToOne) (x y : String) : (M.bind x y).OneToOne where
  left := by
    rintro a a' b (⟨rfl, rfl⟩ | ⟨ha, hb, hM⟩) (⟨rfl, hb'⟩ | ⟨ha', hb', hM'⟩)
    · rfl
    · exact absurd rfl hb'
    · exact absurd hb' hb
    · exact h.left hM hM'
  right := by
    rintro a b b' (⟨rfl, rfl⟩ | ⟨ha, hb, hM⟩) (⟨ha', rfl⟩ | ⟨ha', hb', hM'⟩)
    · rfl
    · exact absurd rfl ha'
    · exact absurd ha' ha
    · exact h.right hM hM'

theorem bindAll (h : M.OneToOne) (xs ys : List String) : (M.bindAll xs ys).OneToOne := by
  induction xs generalizing ys M with
  | nil =>
      rw [bindAll_nil_left]
      exact h
  | cons x xs ih =>
      cases ys with
      | nil => exact h
      | cons y ys =>
          show ((M.bind x y).bindAll xs ys).OneToOne
          exact ih (h.bind x y) ys

theorem after (h : M.OneToOne) (b c : Block) : (M.after b c).OneToOne :=
  h.bindAll (Block.declared b) (Block.declared c)

end Matching.OneToOne

/-! ## What statements that match have in common -/

theorem Stmt.Matches.defined?_eq {M : Matching} {s t : Stmt} (h : s.Matches M t) :
    s.defined? = t.defined? := by
  cases h <;> rfl

theorem Block.Matches.functions_eq {M : Matching} {b c : Block} (h : Block.Matches M b c) :
    Block.functions b = Block.functions c := by
  induction b generalizing M c with
  | nil =>
      cases h
      rfl
  | cons s rest ih =>
      cases h with
      | cons hs hrest =>
          have hrest := ih hrest
          simp only [Block.functions] at hrest
          simp only [Block.functions, List.filterMap_cons, hs.defined?_eq, hrest]

mutual

theorem Expr.Matches.callees_eq {M : Matching} : {e f : Expr} → e.Matches M f →
    e.callees = f.callees
  | _, _, .literal l => rfl
  | _, _, .variable _ => rfl
  | _, _, .call f hargs => congrArg (f :: ·) hargs.callees_eq

theorem Expr.MatchesAll.callees_eq {M : Matching} : {es fs : List Expr} →
    Expr.MatchesAll M es fs → Expr.calleesOfList es = Expr.calleesOfList fs
  | _, _, .nil => rfl
  | _, _, .cons he hes => by
      rw [Expr.calleesOfList, Expr.calleesOfList, he.callees_eq, hes.callees_eq]

end

/-- The functions that a statement calls itself, outside its blocks. -/
def Stmt.callees (s : Stmt) : List String :=
  (s.expression?.map Expr.callees).getD []

theorem Stmt.Matches.callees_eq {M : Matching} {s t : Stmt} (h : s.Matches M t) :
    s.callees = t.callees := by
  cases h with
  | declare he _ =>
      cases he with
      | none => rfl
      | some he => exact he.callees_eq
  | expr he | assign he | branch he | switch he => exact he.callees_eq
  | loop _ he => exact he.callees_eq
  | _ => rfl

mutual

/-- Statements that match have statements inside that call the same functions. -/
theorem Stmt.Matches.forall₂_subtree : {M : Matching} → {s t : Stmt} → s.Matches M t →
    List.Forall₂ (fun u v => u.callees = v.callees) s.subtree t.subtree
  | _, _, _, .expr he => .cons (Stmt.Matches.expr he).callees_eq .nil
  | _, _, _, .assign he hxs => .cons (Stmt.Matches.assign he hxs).callees_eq .nil
  | _, _, _, .declare he htypes => .cons (Stmt.Matches.declare he htypes).callees_eq .nil
  | _, _, _, .define name hps hrs hb =>
      .cons (Stmt.Matches.define name hps hrs hb).callees_eq hb.forall₂_subtrees
  | _, _, _, .branch hc hb => .cons (Stmt.Matches.branch hc hb).callees_eq hb.forall₂_subtrees
  | _, _, _, .switch he hcs => .cons (Stmt.Matches.switch he hcs).callees_eq hcs.forall₂_subtrees
  | _, _, _, .loop hpre hc hpost hbody =>
      .cons (Stmt.Matches.loop hpre hc hpost hbody).callees_eq (List.rel_append
        (List.rel_append hpre.forall₂_subtrees hpost.forall₂_subtrees) hbody.forall₂_subtrees)
  | _, _, _, .break => .cons rfl .nil
  | _, _, _, .continue => .cons rfl .nil
  | _, _, _, .leave => .cons rfl .nil
  | _, _, _, .block hb => .cons rfl hb.forall₂_subtrees

theorem Block.Matches.forall₂_subtrees : {M : Matching} → {b c : List Stmt} →
    Block.Matches M b c →
    List.Forall₂ (fun u v => u.callees = v.callees) (Block.subtrees b) (Block.subtrees c)
  | _, _, _, .nil => .nil
  | _, _, _, .cons hs hb => List.rel_append hs.forall₂_subtree hb.forall₂_subtrees

theorem Case.Matches.forall₂_subtrees : {M : Matching} → {cs ds : List Case} →
    Case.Matches M cs ds →
    List.Forall₂ (fun u v => u.callees = v.callees) (Case.subtrees cs) (Case.subtrees ds)
  | _, _, _, .nil => .nil
  | _, _, _, .cons _ hb hcs => List.rel_append hb.forall₂_subtrees hcs.forall₂_subtrees

end

theorem Stmt.Matches.called_eq {M : Matching} {s t : Stmt} (h : s.Matches M t) :
    s.called = t.called := by
  have hcallees : s.subtree.flatMap Stmt.callees = t.subtree.flatMap Stmt.callees := by
    have hsubtree := h.forall₂_subtree
    generalize s.subtree = us at hsubtree ⊢
    generalize t.subtree = vs at hsubtree ⊢
    induction hsubtree with
    | nil => rfl
    | cons huv _ ih => rw [List.flatMap_cons, List.flatMap_cons, huv, ih]
  exact hcallees

/-- For what a statement assigns, a variable that stands for it is assigned in a statement
that it matches. -/
theorem Stmt.Matches.exists_assigns {M : Matching} {y : String} {s t : Stmt} (h : s.Matches M t)
    (hy : t.Assigns y) : ∃ x, s.Assigns x ∧ M x y := by
  have hunbound : ∀ x, ¬ Scopes.initial.binds x = true := by simp
  obtain ⟨o', ho', hwrite, rfl, hfree⟩ :=
    (Stmt.exists_writes_walk t .initial).mpr ⟨hunbound y, hy⟩
  obtain ⟨o, ho, hoo'⟩ := exists_mem_left_of_forall₂ (h.forall₂_walk M.inside_initial) ho'
  have hwrites : o.Writes o.name := ⟨hoo'.access.trans hwrite, rfl, hoo'.isFree.trans hfree⟩
  have hassigns := (Stmt.exists_writes_walk s .initial).mp ⟨o, ho, hwrites⟩
  exact ⟨o.name, hassigns.2, hoo'.name hwrites.2.2⟩

/-! ## Common starts -/

/-- The cases of a switch start with the same statement, and neither functions nor
assignments keep it from moving in front of the switch. -/
inductive Case.Common (e : Expr) : List Case → Prop where
  | intro {value : Option Literal} {s : Stmt} {rest : Block} {others : List Case} :
      s.defined? = none → (∀ x, s.Assigns x → x ∉ e.variableNames) →
      (∀ f ∈ s.called, f ∉ Block.functions (s :: rest) ∧
        ∀ c ∈ others, f ∉ Block.functions c.body) →
      (∀ c ∈ others, ∃ t rest', c.body = t :: rest' ∧ s.Matches Eq t) →
      Common e (⟨value, s :: rest⟩ :: others)

/-- Not a switch whose cases have a common start. -/
def Stmt.Apart (s : Stmt) : Prop :=
  ∀ e cases, s = .switch e cases → ¬Case.Common e cases

theorem Case.Matches.exists_right {M : Matching} {cs ds : List Case} (h : Case.Matches M cs ds)
    {c : Case} (hc : c ∈ cs) : ∃ d ∈ ds, Block.Matches M c.body d.body := by
  induction cs generalizing ds with
  | nil => cases hc
  | cons c' cs ih =>
      cases h with
      | @cons _ _ body body' _ ds hb hcs =>
          rcases List.mem_cons.mp hc with rfl | hc
          · exact ⟨_, List.mem_cons_self .., hb⟩
          · obtain ⟨d, hd, hmatches⟩ := ih hcs hc
            exact ⟨d, List.mem_cons_of_mem _ hd, hmatches⟩

/-- Statements match that match the same statement, if no variable of it stands for two. -/
theorem Stmt.Matches.cancel {M : Matching} {s s' t t' : Stmt} (hs : s.Matches M s')
    (h : s'.Matches Eq t') (ht : t.Matches M t') (hM : ∀ {x x' y}, M x y → M x' y → x = x') :
    s.Matches Eq t := by
  -- There, equality, and back: this is equality.
  refine ((hs.trans h).trans ht.symm).mono ?_
  rintro x x' ⟨y, ⟨y', hy', rfl⟩, hy⟩
  exact hM hy' hy

/-- Cases whose variables are renamed one to one have no common start that was not there
before. -/
theorem Case.Common.of_matches {M : Matching} (hM : M.OneToOne) {e f : Expr}
    {cs ds : List Case} (he : e.Matches M f) (hcs : Case.Matches M cs ds)
    (h : Case.Common f ds) : Case.Common e cs := by
  cases h with
  | @intro value s' rest' others' hdefined hassigns hcalled hothers =>
      cases hcs with
      | @cons _ _ body _ others _ hb hrest =>
          cases hb with
          | @cons _ s _ rest _ hs hb =>
              refine .intro ?_ ?_ ?_ ?_
              · rw [hs.defined?_eq]
                exact hdefined
              -- What the statement assigns and the scrutinee reads on this side stands for one
              -- variable on the other side.
              · intro x hx hxe
                obtain ⟨y, hy, hxy⟩ := hs.symm.exists_assigns hx
                obtain ⟨y', hy', hxy'⟩ := exists_mem_left_of_forall₂ he.symm.forall₂_names hxe
                exact hassigns y hy (hM.right hxy' hxy ▸ hy')
              · intro g hg
                rw [hs.called_eq] at hg
                obtain ⟨hfirst, hfollowers⟩ := hcalled g hg
                rw [(Block.Matches.cons hs hb).functions_eq]
                refine ⟨hfirst, fun c hc => ?_⟩
                obtain ⟨d, hd, hmatches⟩ := hrest.exists_right hc
                rw [hmatches.functions_eq]
                exact hfollowers d hd
              -- Both starts match statements that match each other.
              · intro c hc
                obtain ⟨d, hd, hmatches⟩ := hrest.exists_right hc
                obtain ⟨t', rest'', hd, hequal⟩ := hothers d hd
                rw [hd] at hmatches
                generalize c.body = b at hmatches ⊢
                cases hmatches with
                | @cons _ t _ own _ ht _ => exact ⟨t, own, rfl, hs.cancel hequal ht hM.left⟩

theorem Stmt.apart_of_ne_switch {s : Stmt} (h : ∀ e cases, s ≠ .switch e cases) : s.Apart :=
  fun e cases heq => absurd heq (h e cases)

theorem Stmt.apart_switch_iff {e : Expr} {cases : List Case} :
    (Stmt.switch e cases).Apart ↔ ¬Case.Common e cases := by
  constructor
  · exact fun h => h e cases rfl
  · intro h e' cases' heq
    cases heq
    exact h

mutual

/-- Statements whose variables are renamed one to one have no common starts that were not
there before. -/
theorem Stmt.Matches.each_apart : {M : Matching} → M.OneToOne → {s t : Stmt} → s.Matches M t →
    s.Each Stmt.Apart → t.Each Stmt.Apart
  | _, hM, _, _, .define name hps hrs hb, h => by
      rw [Stmt.each_define] at h ⊢
      exact ⟨Stmt.apart_of_ne_switch nofun, hb.each_apart (hM.bindAll _ _) h.2⟩
  | _, hM, _, _, .branch hc hb, h => by
      rw [Stmt.each_branch] at h ⊢
      exact ⟨Stmt.apart_of_ne_switch nofun, hb.each_apart hM h.2⟩
  | _, hM, _, _, .switch he hcs, h => by
      rw [Stmt.each_switch, Stmt.apart_switch_iff] at h ⊢
      exact ⟨fun hcommon => h.1 (hcommon.of_matches hM he hcs), hcs.each_apart hM h.2⟩
  | _, hM, _, _, .loop hpre hc hpost hbody, h => by
      rw [Stmt.each_loop] at h ⊢
      exact ⟨Stmt.apart_of_ne_switch nofun, hpre.each_apart hM h.2.1,
        hpost.each_apart (hM.after _ _) h.2.2.1, hbody.each_apart (hM.after _ _) h.2.2.2⟩
  | _, hM, _, _, .block hb, h => by
      rw [Stmt.each_block] at h ⊢
      exact ⟨Stmt.apart_of_ne_switch nofun, hb.each_apart hM h.2⟩
  | _, _, _, _, .expr _, _ => List.forall_mem_singleton.mpr (Stmt.apart_of_ne_switch nofun)
  | _, _, _, _, .assign _ _, _ => List.forall_mem_singleton.mpr (Stmt.apart_of_ne_switch nofun)
  | _, _, _, _, .declare _ _, _ => List.forall_mem_singleton.mpr (Stmt.apart_of_ne_switch nofun)
  | _, _, _, _, .break, h => h
  | _, _, _, _, .continue, h => h
  | _, _, _, _, .leave, h => h

theorem Block.Matches.each_apart : {M : Matching} → M.OneToOne → {b c : List Stmt} →
    Block.Matches M b c → Block.Each Stmt.Apart b → Block.Each Stmt.Apart c
  | _, _, _, _, .nil, _ => Block.each_nil
  | _, hM, _, _, .cons hs hb, h => by
      rw [Block.each_cons] at h ⊢
      exact ⟨hs.each_apart hM h.1, hb.each_apart (hM.bindAll _ _) h.2⟩

theorem Case.Matches.each_apart : {M : Matching} → M.OneToOne → {cs ds : List Case} →
    Case.Matches M cs ds → Case.Each Stmt.Apart cs → Case.Each Stmt.Apart ds
  | _, _, _, _, .nil, _ => Case.each_nil
  | _, hM, _, _, .cons value hb hcs, h => by
      rw [Case.each_cons] at h ⊢
      exact ⟨hb.each_apart hM h.1, hcs.each_apart hM h.2⟩

end

end SwitchHoist
