import Mathlib.Data.List.Forall2
import SwitchHoist.References

/-!
# Matching statements

A matching says which variable of one side stands for which variable of the other.
Two statements match under it when they have the same shape and every occurrence
on the one side stands for the occurrence at the same place on the other.  A pair
of declarations hides what the matching said about the two names and makes them
stand for each other.

Matching statements can be swapped, chained and weakened.  This is the equality up
to declared names, said without the numbers that a comparison gives to
declarations.
-/

namespace SwitchHoist

/-- Which variables of one side stand for which variables of the other. -/
abbrev Matching := String → String → Prop

namespace Matching

/-- The matching behind two declarations that correspond. -/
def bind (M : Matching) (x y : String) : Matching :=
  fun a b => a = x ∧ b = y ∨ a ≠ x ∧ b ≠ y ∧ M a b

/-- The matching behind lists of declared names that correspond place by place. -/
def bindAll : Matching → List String → List String → Matching
  | M, x :: xs, y :: ys => bindAll (M.bind x y) xs ys
  | M, _, _ => M

/-- The matching read from right to left. -/
def swap (M : Matching) : Matching :=
  fun a b => M b a

/-- One matching after another. -/
def comp (M N : Matching) : Matching :=
  fun a c => ∃ b, M a b ∧ N b c

@[simp] theorem bindAll_nil_left (M : Matching) (ys : List String) : M.bindAll [] ys = M := by
  cases ys <;> rfl

@[simp] theorem bindAll_nil_right (M : Matching) (xs : List String) : M.bindAll xs [] = M := by
  cases xs <;> rfl

theorem bindAll_append {xs ys : List String} (h : xs.length = ys.length) (M : Matching)
    (xs' ys' : List String) :
    M.bindAll (xs ++ xs') (ys ++ ys') = (M.bindAll xs ys).bindAll xs' ys' := by
  induction xs generalizing ys M with
  | nil =>
      have hys : ys = [] := List.eq_nil_of_length_eq_zero h.symm
      simp [hys]
  | cons x xs ih =>
      cases ys with
      | nil => simp at h
      | cons y ys =>
          show (M.bind x y).bindAll (xs ++ xs') (ys ++ ys') =
            ((M.bind x y).bindAll xs ys).bindAll xs' ys'
          exact ih (Nat.succ.inj h) (M.bind x y)

theorem bind_mono {M N : Matching} (h : ∀ a b, M a b → N a b) (x y : String) :
    ∀ a b, M.bind x y a b → N.bind x y a b := by
  rintro a b (hab | ⟨ha, hb, hm⟩)
  · exact Or.inl hab
  · exact Or.inr ⟨ha, hb, h a b hm⟩

theorem bindAll_mono {M N : Matching} (h : ∀ a b, M a b → N a b) (xs ys : List String) :
    ∀ a b, M.bindAll xs ys a b → N.bindAll xs ys a b := by
  induction xs generalizing ys M N with
  | nil => simpa using h
  | cons x xs ih =>
      cases ys with
      | nil => simpa using h
      | cons y ys =>
          show ∀ a b, (M.bind x y).bindAll xs ys a b → (N.bind x y).bindAll xs ys a b
          exact ih (bind_mono h x y) ys

theorem swap_bind (M : Matching) (x y : String) : (M.bind x y).swap = M.swap.bind y x := by
  funext a b
  apply propext
  constructor
  · rintro (⟨hb, ha⟩ | ⟨hb, ha, hm⟩)
    · exact Or.inl ⟨ha, hb⟩
    · exact Or.inr ⟨ha, hb, hm⟩
  · rintro (⟨ha, hb⟩ | ⟨ha, hb, hm⟩)
    · exact Or.inl ⟨hb, ha⟩
    · exact Or.inr ⟨hb, ha, hm⟩

theorem swap_bindAll (M : Matching) (xs ys : List String) :
    (M.bindAll xs ys).swap = M.swap.bindAll ys xs := by
  induction xs generalizing ys M with
  | nil => simp
  | cons x xs ih =>
      cases ys with
      | nil => simp
      | cons y ys => rw [bindAll, ih, swap_bind, bindAll]

theorem comp_bind {M N : Matching} {x y z a c : String}
    (h : (M.bind x y).comp (N.bind y z) a c) : (M.comp N).bind x z a c := by
  -- The name in the middle is the declared one on both sides or on neither.
  obtain ⟨b, hab | ⟨ha, hb, hm⟩, hbc | ⟨hb', hc, hn⟩⟩ := h
  · exact Or.inl ⟨hab.1, hbc.2⟩
  · exact absurd hab.2 hb'
  · exact absurd hbc.1 hb
  · exact Or.inr ⟨ha, hc, b, hm, hn⟩

/-- A chain of declarations says no more than the declarations of its two ends. -/
theorem comp_bindAll {M N : Matching} {xs ys zs : List String}
    (hxy : xs.length = ys.length) (hyz : ys.length = zs.length) {a c : String}
    (h : (M.bindAll xs ys).comp (N.bindAll ys zs) a c) : (M.comp N).bindAll xs zs a c := by
  induction xs generalizing ys zs M N with
  | nil =>
      have hys : ys = [] := List.eq_nil_of_length_eq_zero hxy.symm
      subst hys
      have hzs : zs = [] := List.eq_nil_of_length_eq_zero hyz.symm
      simpa [hzs] using h
  | cons x xs ih =>
      cases ys with
      | nil => simp at hxy
      | cons y ys =>
          cases zs with
          | nil => simp at hyz
          | cons z zs =>
              have hrest := ih (Nat.succ.inj hxy) (Nat.succ.inj hyz) h
              show ((M.comp N).bind x z).bindAll xs zs a c
              exact bindAll_mono (fun _ _ => comp_bind) xs zs a c hrest

end Matching

/-- The types in a list of typed names. -/
def TypedName.types (vars : List TypedName) : List (Option String) :=
  vars.map TypedName.typ

/-- The names that the statements of a block declare in its scope. -/
def Block.declared (b : Block) : List String :=
  b.flatMap Stmt.declared

@[simp] theorem Block.declared_nil : Block.declared [] = [] := rfl

@[simp] theorem Block.declared_cons (s : Stmt) (b : Block) :
    Block.declared (s :: b) = s.declared ++ Block.declared b := rfl

@[simp] theorem Block.declared_append (b c : Block) :
    Block.declared (b ++ c) = Block.declared b ++ Block.declared c := by
  simp [Block.declared]

/-- The matching behind two blocks of one scope each. -/
def Matching.after (M : Matching) (b c : Block) : Matching :=
  M.bindAll (Block.declared b) (Block.declared c)

mutual

/-- Expressions that match. -/
inductive Expr.Matches : Matching → Expr → Expr → Prop where
  | literal {M : Matching} (l : Literal) : Expr.Matches M (.literal l) (.literal l)
  | variable {M : Matching} {x y : String} :
      M x y → Expr.Matches M (.variable x) (.variable y)
  | call {M : Matching} {args args' : List Expr} (f : String) :
      Expr.MatchesAll M args args' → Expr.Matches M (.call f args) (.call f args')

/-- Lists of expressions that match one by one. -/
inductive Expr.MatchesAll : Matching → List Expr → List Expr → Prop where
  | nil {M : Matching} : Expr.MatchesAll M [] []
  | cons {M : Matching} {e f : Expr} {es fs : List Expr} :
      Expr.Matches M e f → Expr.MatchesAll M es fs → Expr.MatchesAll M (e :: es) (f :: fs)

end

/-- Values of declarations that match, or are both missing. -/
inductive Expr.MatchesOption : Matching → Option Expr → Option Expr → Prop where
  | none {M : Matching} : Expr.MatchesOption M none none
  | some {M : Matching} {e f : Expr} :
      Expr.Matches M e f → Expr.MatchesOption M (some e) (some f)

mutual

/-- Statements that match. -/
inductive Stmt.Matches : Matching → Stmt → Stmt → Prop where
  | expr {M : Matching} {e f : Expr} : e.Matches M f → Stmt.Matches M (.expr e) (.expr f)
  | assign {M : Matching} {xs ys : List String} {e f : Expr} :
      e.Matches M f → List.Forall₂ M xs ys → Stmt.Matches M (.assign xs e) (.assign ys f)
  | declare {M : Matching} {vars vars' : List TypedName} {e f : Option Expr} :
      Expr.MatchesOption M e f → TypedName.types vars = TypedName.types vars' →
      Stmt.Matches M (.declare vars e) (.declare vars' f)
  | define {M : Matching} (name : String) {ps qs rs ts : List TypedName} {body body' : Block} :
      TypedName.types ps = TypedName.types qs → TypedName.types rs = TypedName.types ts →
      Block.Matches (M.bindAll (TypedName.names (ps ++ rs)) (TypedName.names (qs ++ ts)))
        body body' →
      Stmt.Matches M (.define name ps rs body) (.define name qs ts body')
  | branch {M : Matching} {c d : Expr} {body body' : Block} :
      c.Matches M d → Block.Matches M body body' →
      Stmt.Matches M (.branch c body) (.branch d body')
  | switch {M : Matching} {e f : Expr} {cases cases' : List Case} :
      e.Matches M f → Case.Matches M cases cases' →
      Stmt.Matches M (.switch e cases) (.switch f cases')
  | loop {M : Matching} {pre pre' : Block} {c d : Expr} {post post' body body' : Block} :
      Block.Matches M pre pre' → c.Matches (M.after pre pre') d →
      Block.Matches (M.after pre pre') post post' →
      Block.Matches (M.after pre pre') body body' →
      Stmt.Matches M (.loop pre c post body) (.loop pre' d post' body')
  | break {M : Matching} : Stmt.Matches M .break .break
  | continue {M : Matching} : Stmt.Matches M .continue .continue
  | leave {M : Matching} : Stmt.Matches M .leave .leave
  | block {M : Matching} {body body' : Block} :
      Block.Matches M body body' → Stmt.Matches M (.block body) (.block body')

/-- Statements of one scope that match one by one. -/
inductive Block.Matches : Matching → List Stmt → List Stmt → Prop where
  | nil {M : Matching} : Block.Matches M [] []
  | cons {M : Matching} {s t : Stmt} {b c : Block} :
      s.Matches M t → Block.Matches (M.bindAll s.declared t.declared) b c →
      Block.Matches M (s :: b) (t :: c)

/-- Cases that match one by one. -/
inductive Case.Matches : Matching → List Case → List Case → Prop where
  | nil {M : Matching} : Case.Matches M [] []
  | cons {M : Matching} (value : Option Literal) {body body' : Block} {cs ds : List Case} :
      Block.Matches M body body' → Case.Matches M cs ds →
      Case.Matches M (⟨value, body⟩ :: cs) (⟨value, body'⟩ :: ds)

end

/-! ## Declared names -/

theorem TypedName.length_names {vars vars' : List TypedName}
    (h : TypedName.types vars = TypedName.types vars') :
    (TypedName.names vars).length = (TypedName.names vars').length := by
  have hlen := congrArg List.length h
  simpa [TypedName.types, TypedName.names] using hlen

theorem TypedName.length_names_append {ps qs rs ts : List TypedName}
    (h : TypedName.types ps = TypedName.types qs)
    (h' : TypedName.types rs = TypedName.types ts) :
    (TypedName.names (ps ++ rs)).length = (TypedName.names (qs ++ ts)).length := by
  apply TypedName.length_names
  simp only [TypedName.types, List.map_append] at h h' ⊢
  rw [h, h']

theorem Matching.bindAll_names_append {ps qs : List TypedName}
    (h : TypedName.types ps = TypedName.types qs) (M : Matching) (rs ts : List TypedName) :
    M.bindAll (TypedName.names (ps ++ rs)) (TypedName.names (qs ++ ts)) =
      (M.bindAll (TypedName.names ps) (TypedName.names qs)).bindAll (TypedName.names rs)
        (TypedName.names ts) := by
  rw [← Matching.bindAll_append (TypedName.length_names h)]
  simp [TypedName.names]

/-- Matching statements declare equally many names. -/
theorem Stmt.Matches.length_declared {M : Matching} {s t : Stmt} (h : s.Matches M t) :
    s.declared.length = t.declared.length := by
  cases h with
  | declare _ htypes => exact TypedName.length_names htypes
  | _ => rfl

theorem Block.Matches.length_declared :
    {M : Matching} → {b c : Block} → Block.Matches M b c →
      (Block.declared b).length = (Block.declared c).length
  | _, _, _, .nil => rfl
  | _, _, _, .cons hs hb => by
      simp [hs.length_declared, hb.length_declared]

@[simp] theorem Matching.after_nil (M : Matching) : M.after [] [] = M := rfl

theorem Matching.after_cons {s t : Stmt} (h : s.declared.length = t.declared.length)
    (M : Matching) (b c : Block) :
    M.after (s :: b) (t :: c) = (M.bindAll s.declared t.declared).after b c := by
  simp only [Matching.after, Block.declared_cons]
  exact Matching.bindAll_append h M _ _

/-- Blocks match when their two parts do, the second part behind the first. -/
theorem Block.Matches.append :
    {M : Matching} → {b c b' c' : Block} → Block.Matches M b c →
      Block.Matches (M.after b c) b' c' → Block.Matches M (b ++ b') (c ++ c')
  | _, _, _, _, _, .nil, h' => h'
  | _, _, _, _, _, .cons hs hb, h' =>
      .cons hs (hb.append (Matching.after_cons hs.length_declared _ _ _ ▸ h'))

/-! ## Weakening, swapping and chaining -/

mutual

/-- A matching that says more keeps expressions matching. -/
theorem Expr.Matches.mono {M N : Matching} (h : ∀ x y, M x y → N x y) :
    {e f : Expr} → e.Matches M f → e.Matches N f
  | _, _, .literal l => .literal l
  | _, _, .variable hxy => .variable (h _ _ hxy)
  | _, _, .call f hargs => .call f (hargs.mono h)

theorem Expr.MatchesAll.mono {M N : Matching} (h : ∀ x y, M x y → N x y) :
    {es fs : List Expr} → Expr.MatchesAll M es fs → Expr.MatchesAll N es fs
  | _, _, .nil => .nil
  | _, _, .cons he hes => .cons (he.mono h) (hes.mono h)

end

theorem Expr.MatchesOption.mono {M N : Matching} (h : ∀ x y, M x y → N x y)
    {e f : Option Expr} : Expr.MatchesOption M e f → Expr.MatchesOption N e f
  | .none => .none
  | .some he => .some (he.mono h)

mutual

/-- A matching that says more keeps statements matching. -/
theorem Stmt.Matches.mono : {M N : Matching} → (∀ x y, M x y → N x y) →
    {s t : Stmt} → s.Matches M t → s.Matches N t
  | _, _, h, _, _, .expr he => .expr (he.mono h)
  | _, _, h, _, _, .assign he hxs => .assign (he.mono h) (hxs.imp h)
  | _, _, h, _, _, .declare he htypes => .declare (he.mono h) htypes
  | _, _, h, _, _, .define name hps hrs hb =>
      .define name hps hrs (hb.mono (Matching.bindAll_mono h _ _))
  | _, _, h, _, _, .branch hc hb => .branch (hc.mono h) (hb.mono h)
  | _, _, h, _, _, .switch he hcs => .switch (he.mono h) (hcs.mono h)
  | _, _, h, _, _, .loop hpre hc hpost hbody =>
      have hafter := Matching.bindAll_mono h _ _
      .loop (hpre.mono h) (hc.mono hafter) (hpost.mono hafter) (hbody.mono hafter)
  | _, _, _, _, _, .break => .break
  | _, _, _, _, _, .continue => .continue
  | _, _, _, _, _, .leave => .leave
  | _, _, h, _, _, .block hb => .block (hb.mono h)

theorem Block.Matches.mono : {M N : Matching} → (∀ x y, M x y → N x y) →
    {b c : List Stmt} → Block.Matches M b c → Block.Matches N b c
  | _, _, _, _, _, .nil => .nil
  | _, _, h, _, _, .cons hs hb => .cons (hs.mono h) (hb.mono (Matching.bindAll_mono h _ _))

theorem Case.Matches.mono : {M N : Matching} → (∀ x y, M x y → N x y) →
    {cs ds : List Case} → Case.Matches M cs ds → Case.Matches N cs ds
  | _, _, _, _, _, .nil => .nil
  | _, _, h, _, _, .cons value hb hcs => .cons value (hb.mono h) (hcs.mono h)

end

mutual

/-- What matches also matches the other way round. -/
theorem Expr.Matches.symm {M : Matching} :
    {e f : Expr} → e.Matches M f → f.Matches M.swap e
  | _, _, .literal l => .literal l
  | _, _, .variable hxy => .variable hxy
  | _, _, .call f hargs => .call f hargs.symm

theorem Expr.MatchesAll.symm {M : Matching} :
    {es fs : List Expr} → Expr.MatchesAll M es fs → Expr.MatchesAll M.swap fs es
  | _, _, .nil => .nil
  | _, _, .cons he hes => .cons he.symm hes.symm

end

theorem Expr.MatchesOption.symm {M : Matching} {e f : Option Expr} :
    Expr.MatchesOption M e f → Expr.MatchesOption M.swap f e
  | .none => .none
  | .some he => .some he.symm

mutual

/-- What matches also matches the other way round. -/
theorem Stmt.Matches.symm : {M : Matching} → {s t : Stmt} → s.Matches M t → t.Matches M.swap s
  | _, _, _, .expr he => .expr he.symm
  | _, _, _, .assign he hxs => .assign he.symm hxs.flip
  | _, _, _, .declare he htypes => .declare he.symm htypes.symm
  | _, _, _, .define name hps hrs hb =>
      .define name hps.symm hrs.symm (Matching.swap_bindAll _ _ _ ▸ hb.symm)
  | _, _, _, .branch hc hb => .branch hc.symm hb.symm
  | _, _, _, .switch he hcs => .switch he.symm hcs.symm
  | M, .loop pre _ _ _, .loop pre' _ _ _, .loop hpre hc hpost hbody => by
      have hafter : (M.after pre pre').swap = M.swap.after pre' pre :=
        Matching.swap_bindAll _ _ _
      exact .loop hpre.symm (hafter ▸ hc.symm) (hafter ▸ hpost.symm) (hafter ▸ hbody.symm)
  | _, _, _, .break => .break
  | _, _, _, .continue => .continue
  | _, _, _, .leave => .leave
  | _, _, _, .block hb => .block hb.symm

theorem Block.Matches.symm :
    {M : Matching} → {b c : List Stmt} → Block.Matches M b c → Block.Matches M.swap c b
  | _, _, _, .nil => .nil
  | _, _, _, .cons hs hb => .cons hs.symm (Matching.swap_bindAll _ _ _ ▸ hb.symm)

theorem Case.Matches.symm :
    {M : Matching} → {cs ds : List Case} → Case.Matches M cs ds → Case.Matches M.swap ds cs
  | _, _, _, .nil => .nil
  | _, _, _, .cons value hb hcs => .cons value hb.symm hcs.symm

end

mutual

/-- Matches can be chained. -/
theorem Expr.Matches.trans {M N : Matching} :
    {e f g : Expr} → e.Matches M f → f.Matches N g → e.Matches (M.comp N) g
  | _, _, _, .literal l, .literal _ => .literal l
  | _, _, _, .variable hxy, .variable hyz => .variable ⟨_, hxy, hyz⟩
  | _, _, _, .call f hargs, .call _ hargs' => .call f (hargs.trans hargs')

theorem Expr.MatchesAll.trans {M N : Matching} :
    {es fs gs : List Expr} → Expr.MatchesAll M es fs → Expr.MatchesAll N fs gs →
      Expr.MatchesAll (M.comp N) es gs
  | _, _, _, .nil, .nil => .nil
  | _, _, _, .cons he hes, .cons hf hfs => .cons (he.trans hf) (hes.trans hfs)

end

theorem Expr.MatchesOption.trans {M N : Matching} {e f g : Option Expr} :
    Expr.MatchesOption M e f → Expr.MatchesOption N f g → Expr.MatchesOption (M.comp N) e g
  | .none, .none => .none
  | .some he, .some hf => .some (he.trans hf)

theorem Matching.forall₂_comp {M N : Matching} :
    {xs ys zs : List String} → List.Forall₂ M xs ys → List.Forall₂ N ys zs →
      List.Forall₂ (M.comp N) xs zs
  | _, _, _, .nil, .nil => .nil
  | _, _, _, .cons hxy hxs, .cons hyz hys => .cons ⟨_, hxy, hyz⟩ (forall₂_comp hxs hys)

mutual

/-- Matches can be chained. -/
theorem Stmt.Matches.trans :
    {M N : Matching} → {s t u : Stmt} → s.Matches M t → t.Matches N u → s.Matches (M.comp N) u
  | _, _, _, _, _, .expr he, .expr hf => .expr (he.trans hf)
  | _, _, _, _, _, .assign he hxs, .assign hf hys =>
      .assign (he.trans hf) (Matching.forall₂_comp hxs hys)
  | _, _, _, _, _, .declare he htypes, .declare hf htypes' =>
      .declare (he.trans hf) (htypes.trans htypes')
  | _, _, _, _, _, .define name hps hrs hb, .define _ hps' hrs' hb' =>
      .define name (hps.trans hps') (hrs.trans hrs')
        ((hb.trans hb').mono fun _ _ => Matching.comp_bindAll
          (TypedName.length_names_append hps hrs) (TypedName.length_names_append hps' hrs'))
  | _, _, _, _, _, .branch hc hb, .branch hc' hb' => .branch (hc.trans hc') (hb.trans hb')
  | _, _, _, _, _, .switch he hcs, .switch he' hcs' => .switch (he.trans he') (hcs.trans hcs')
  | _, _, _, _, _, .loop hpre hc hpost hbody, .loop hpre' hc' hpost' hbody' =>
      have hafter := fun _ _ =>
        Matching.comp_bindAll hpre.length_declared hpre'.length_declared
      .loop (hpre.trans hpre') ((hc.trans hc').mono hafter) ((hpost.trans hpost').mono hafter)
        ((hbody.trans hbody').mono hafter)
  | _, _, _, _, _, .break, .break => .break
  | _, _, _, _, _, .continue, .continue => .continue
  | _, _, _, _, _, .leave, .leave => .leave
  | _, _, _, _, _, .block hb, .block hb' => .block (hb.trans hb')

theorem Block.Matches.trans :
    {M N : Matching} → {b c d : List Stmt} → Block.Matches M b c → Block.Matches N c d →
      Block.Matches (M.comp N) b d
  | _, _, _, _, _, .nil, .nil => .nil
  | _, _, _, _, _, .cons hs hb, .cons ht hc =>
      .cons (hs.trans ht) ((hb.trans hc).mono fun _ _ =>
        Matching.comp_bindAll hs.length_declared ht.length_declared)

theorem Case.Matches.trans :
    {M N : Matching} → {bs cs ds : List Case} → Case.Matches M bs cs → Case.Matches N cs ds →
      Case.Matches (M.comp N) bs ds
  | _, _, _, _, _, .nil, .nil => .nil
  | _, _, _, _, _, .cons value hb hcs, .cons _ hb' hcs' =>
      .cons value (hb.trans hb') (hcs.trans hcs')

end

end SwitchHoist
