import SwitchHoist.Proofs.AlignedMatching

/-!
# Statements without names

In the nameless form of a statement no declaration has a name.  An occurrence of a declared
variable says how many declarations in scope are more recent than its own, and an occurrence
of a free variable is its name.  Everything else stays: shapes, literals, types, callees, the
names of functions and the values of cases.

The form is computed from one statement alone.  Two statements are equal up to declared names
just if they have the same form, so this equality is an equivalence.
-/

namespace SwitchHoist

namespace Nameless

/-- An occurrence of a variable without the name of its declaration. -/
inductive Variable where
  | bound (index : Nat)
  | free (name : String)
  deriving DecidableEq, Repr

/-- An expression without the names of declared variables. -/
inductive Expr where
  | literal (value : Literal)
  | variable (x : Variable)
  | call (callee : String) (args : List Expr)

mutual

/-- A statement without declared names.  Declarations, parameters and returns keep their
types. -/
inductive Stmt where
  | expr (value : Expr)
  | assign (targets : List Variable) (value : Expr)
  | declare (types : List (Option String)) (value : Option Expr)
  | define (name : String) (params returns : List (Option String)) (body : List Stmt)
  | branch (condition : Expr) (body : List Stmt)
  | switch (scrutinee : Expr) (cases : List Case)
  | loop (pre : List Stmt) (condition : Expr) (post body : List Stmt)
  | break
  | continue
  | leave
  | block (body : List Stmt)

/-- A case without declared names. -/
inductive Case where
  | mk (value : Option Literal) (body : List Stmt)

end

/-- One declaration more stands between an occurrence and its own. -/
def Variable.shift : Variable → Variable
  | bound i => bound (i + 1)
  | free x => free x

/-- What a name stands for behind declarations, of which the most recent is the first of the
list. -/
def resolve : List String → String → Variable
  | [], x => .free x
  | y :: scope, x => if x = y then .bound 0 else (resolve scope x).shift

/-- The names in scope behind declarations, of which the last is the most recent. -/
def behind (names scope : List String) : List String :=
  names.reverse ++ scope

theorem behind_cons (x : String) (xs scope : List String) :
    behind (x :: xs) scope = behind xs (x :: scope) := by
  simp [behind]

end Nameless

/-! ## The nameless form -/

open Nameless (resolve behind)

mutual

/-- The nameless form of an expression, with the names in scope. -/
def Expr.nameless (scope : List String) : Expr → Nameless.Expr
  | .literal l => .literal l
  | .variable x => .variable (resolve scope x)
  | .call f args => .call f (Expr.namelessList scope args)

/-- The nameless forms of expressions. -/
def Expr.namelessList (scope : List String) : List Expr → List Nameless.Expr
  | [] => []
  | e :: rest => e.nameless scope :: Expr.namelessList scope rest

end

mutual

/-- The nameless form of a statement, with the names in scope.  The value of a declaration is
outside the scope of its names, and the scope of a loop's first block covers the rest of the
loop. -/
def Stmt.namelessIn (scope : List String) : Stmt → Nameless.Stmt
  | .expr e => .expr (e.nameless scope)
  | .assign targets e => .assign (targets.map (resolve scope)) (e.nameless scope)
  | .declare vars value => .declare (TypedName.types vars) (value.map (Expr.nameless scope))
  | .define f params returns body =>
      .define f (TypedName.types params) (TypedName.types returns)
        (Block.namelessIn (behind (TypedName.names (params ++ returns)) scope) body)
  | .branch c body => .branch (c.nameless scope) (Block.namelessIn scope body)
  | .switch e cases => .switch (e.nameless scope) (Case.namelessIn scope cases)
  | .loop pre c post body =>
      .loop (Block.namelessIn scope pre) (c.nameless (behind (Block.declared pre) scope))
        (Block.namelessIn (behind (Block.declared pre) scope) post)
        (Block.namelessIn (behind (Block.declared pre) scope) body)
  | .break => .break
  | .continue => .continue
  | .leave => .leave
  | .block body => .block (Block.namelessIn scope body)

/-- The nameless forms of the statements of a block, each behind those before it. -/
def Block.namelessIn (scope : List String) : List Stmt → List Nameless.Stmt
  | [] => []
  | s :: rest => s.namelessIn scope :: Block.namelessIn (behind s.declared scope) rest

/-- The nameless forms of the cases of a switch. -/
def Case.namelessIn (scope : List String) : List Case → List Nameless.Case
  | [] => []
  | ⟨value, body⟩ :: rest => .mk value (Block.namelessIn scope body) :: Case.namelessIn scope rest

end

/-- The nameless form of a statement that stands alone, so that all names it does not declare
are free. -/
def Stmt.nameless (s : Stmt) : Nameless.Stmt :=
  s.namelessIn []

/-- The second declaration of a name hides the first one, but not in its own value. -/
example :
    (Stmt.block [.declareUntyped ["a"] (some (.variable "a")),
      .declareUntyped ["a"] (some (.variable "a")), .assign ["b"] (.variable "a")]).nameless =
      .block [.declare [none] (some (.variable (.free "a"))),
        .declare [none] (some (.variable (.bound 0))),
        .assign [.free "b"] (.variable (.bound 0))] :=
  rfl

/-! ## Names that stand for the same -/

namespace Nameless

theorem Variable.shift_inj {x y : Variable} : x.shift = y.shift ↔ x = y := by
  cases x <;> cases y <;> simp [Variable.shift]

theorem Variable.shift_ne (x : Variable) : x.shift ≠ .bound 0 := by
  cases x <;> simp [Variable.shift]

theorem resolve_cons_self (x : String) (scope : List String) :
    resolve (x :: scope) x = .bound 0 :=
  if_pos rfl

theorem resolve_cons_of_ne {x y : String} (h : x ≠ y) (scope : List String) :
    resolve (y :: scope) x = (resolve scope x).shift :=
  if_neg h

end Nameless

namespace Matching

/-- The names that stand for the same in two scopes. -/
def ofScopes (scope scope' : List String) : Matching :=
  fun x y => resolve scope x = resolve scope' y

theorem ofScopes_nil : ofScopes [] [] = Eq := by
  funext x y
  simp [ofScopes, resolve]

/-- Two more declarations that correspond. -/
theorem ofScopes_cons (x y : String) (scope scope' : List String) :
    ofScopes (x :: scope) (y :: scope') = (ofScopes scope scope').bind x y := by
  funext a b
  by_cases ha : a = x <;> by_cases hb : b = y
  · subst ha hb
    simp [ofScopes, bind, Nameless.resolve_cons_self]
  · subst ha
    simp [ofScopes, bind, hb, Nameless.resolve_cons_self, Nameless.resolve_cons_of_ne hb,
      (Nameless.Variable.shift_ne _).symm]
  · subst hb
    simp [ofScopes, bind, ha, Nameless.resolve_cons_self, Nameless.resolve_cons_of_ne ha,
      Nameless.Variable.shift_ne]
  · simp [ofScopes, bind, ha, hb, Nameless.resolve_cons_of_ne ha, Nameless.resolve_cons_of_ne hb,
      Nameless.Variable.shift_inj]

theorem ofScopes_behind {xs ys : List String} (h : xs.length = ys.length)
    (scope scope' : List String) :
    ofScopes (behind xs scope) (behind ys scope') = (ofScopes scope scope').bindAll xs ys := by
  induction xs generalizing ys scope scope' with
  | nil =>
      obtain rfl := List.eq_nil_of_length_eq_zero h.symm
      rfl
  | cons x xs ih =>
      cases ys with
      | nil => cases h
      | cons y ys =>
          rw [Nameless.behind_cons, Nameless.behind_cons, ih (Nat.succ.inj h), ofScopes_cons]
          rfl

theorem forall₂_ofScopes {scope scope' : List String} : (xs ys : List String) →
    (List.Forall₂ (ofScopes scope scope') xs ys ↔
      xs.map (resolve scope) = ys.map (resolve scope'))
  | [], [] => by simp
  | [], _ :: _ => by simp
  | _ :: _, [] => by simp
  | x :: xs, y :: ys => by simp [forall₂_ofScopes xs ys, ofScopes]

end Matching

/-! ## Matching statements have the same form -/

variable {scope scope' : List String}

mutual

theorem Expr.Matches.nameless_eq : {e f : Expr} → e.Matches (.ofScopes scope scope') f →
    e.nameless scope = f.nameless scope'
  | _, _, .literal _ => rfl
  | _, _, .variable hxy => congrArg Nameless.Expr.variable hxy
  | _, _, .call f hargs => congrArg (Nameless.Expr.call f) hargs.nameless_eq

theorem Expr.MatchesAll.nameless_eq : {es fs : List Expr} →
    Expr.MatchesAll (.ofScopes scope scope') es fs →
    Expr.namelessList scope es = Expr.namelessList scope' fs
  | _, _, .nil => rfl
  | _, _, .cons he hes => congrArg₂ List.cons he.nameless_eq hes.nameless_eq

end

theorem Expr.MatchesOption.nameless_eq {e f : Option Expr} :
    Expr.MatchesOption (.ofScopes scope scope') e f →
    e.map (Expr.nameless scope) = f.map (Expr.nameless scope')
  | .none => rfl
  | .some he => congrArg Option.some he.nameless_eq

mutual

theorem Stmt.Matches.nameless_eq : {scope scope' : List String} → {s t : Stmt} →
    s.Matches (.ofScopes scope scope') t → s.namelessIn scope = t.namelessIn scope'
  | _, _, _, _, .expr he => by
      rw [Stmt.namelessIn, Stmt.namelessIn, he.nameless_eq]
  | _, _, _, _, .assign he hxs => by
      rw [Stmt.namelessIn, Stmt.namelessIn, he.nameless_eq, (Matching.forall₂_ofScopes _ _).mp hxs]
  | _, _, _, _, .declare he htypes => by
      rw [Stmt.namelessIn, Stmt.namelessIn, he.nameless_eq, htypes]
  | _, _, _, _, .define _ hps hrs hbody => by
      rw [← Matching.ofScopes_behind (TypedName.length_names_append hps hrs)] at hbody
      rw [Stmt.namelessIn, Stmt.namelessIn, hps, hrs, hbody.nameless_eq]
  | _, _, _, _, .branch hc hbody => by
      rw [Stmt.namelessIn, Stmt.namelessIn, hc.nameless_eq, hbody.nameless_eq]
  | _, _, _, _, .switch he hcases => by
      rw [Stmt.namelessIn, Stmt.namelessIn, he.nameless_eq, hcases.nameless_eq]
  | _, _, _, _, .loop hpre hc hpost hbody => by
      rw [Matching.after, ← Matching.ofScopes_behind hpre.length_declared] at hc hpost hbody
      rw [Stmt.namelessIn, Stmt.namelessIn, hpre.nameless_eq, hc.nameless_eq, hpost.nameless_eq,
        hbody.nameless_eq]
  | _, _, _, _, .break => rfl
  | _, _, _, _, .continue => rfl
  | _, _, _, _, .leave => rfl
  | _, _, _, _, .block hbody => by
      rw [Stmt.namelessIn, Stmt.namelessIn, hbody.nameless_eq]

theorem Block.Matches.nameless_eq : {scope scope' : List String} → {b c : List Stmt} →
    Block.Matches (.ofScopes scope scope') b c →
    Block.namelessIn scope b = Block.namelessIn scope' c
  | _, _, _, _, .nil => rfl
  | _, _, _, _, .cons hs hrest => by
      rw [← Matching.ofScopes_behind hs.length_declared] at hrest
      rw [Block.namelessIn, Block.namelessIn, hs.nameless_eq, hrest.nameless_eq]

theorem Case.Matches.nameless_eq : {scope scope' : List String} → {cs ds : List Case} →
    Case.Matches (.ofScopes scope scope') cs ds →
    Case.namelessIn scope cs = Case.namelessIn scope' ds
  | _, _, _, _, .nil => rfl
  | _, _, _, _, .cons _ hbody hrest => by
      rw [Case.namelessIn, Case.namelessIn, hbody.nameless_eq, hrest.nameless_eq]

end

/-! ## Statements of the same form match -/

mutual

theorem Expr.matches_of_nameless_eq : (e f : Expr) → e.nameless scope = f.nameless scope' →
    e.Matches (.ofScopes scope scope') f
  | .literal l, f, h => by
      cases f <;> simp only [Expr.nameless, reduceCtorEq, Nameless.Expr.literal.injEq] at h
      exact h ▸ .literal l
  | .variable x, f, h => by
      cases f <;> simp only [Expr.nameless, reduceCtorEq, Nameless.Expr.variable.injEq] at h
      exact .variable h
  | .call g args, f, h => by
      cases f <;> simp only [Expr.nameless, reduceCtorEq, Nameless.Expr.call.injEq] at h
      obtain ⟨rfl, hargs⟩ := h
      exact .call g (Expr.matchesAll_of_nameless_eq args _ hargs)

theorem Expr.matchesAll_of_nameless_eq : (es fs : List Expr) →
    Expr.namelessList scope es = Expr.namelessList scope' fs →
    Expr.MatchesAll (.ofScopes scope scope') es fs
  | [], [], _ => .nil
  | [], _ :: _, h => nomatch h
  | _ :: _, [], h => nomatch h
  | e :: es, f :: fs, h => by
      obtain ⟨he, hes⟩ := List.cons.inj h
      exact .cons (Expr.matches_of_nameless_eq e f he) (Expr.matchesAll_of_nameless_eq es fs hes)

end

theorem Expr.matchesOption_of_nameless_eq : (e f : Option Expr) →
    e.map (Expr.nameless scope) = f.map (Expr.nameless scope') →
    Expr.MatchesOption (.ofScopes scope scope') e f
  | none, none, _ => .none
  | none, some _, h => nomatch h
  | some _, none, h => nomatch h
  | some e, some f, h => .some (Expr.matches_of_nameless_eq e f (Option.some.inj h))

mutual

theorem Stmt.matches_of_nameless_eq : (s t : Stmt) → {scope scope' : List String} →
    s.namelessIn scope = t.namelessIn scope' → s.Matches (.ofScopes scope scope') t
  | .expr e, t, _, _, h => by
      cases t <;> simp only [Stmt.namelessIn, reduceCtorEq, Nameless.Stmt.expr.injEq] at h
      exact .expr (Expr.matches_of_nameless_eq e _ h)
  | .assign xs e, t, _, _, h => by
      cases t <;> simp only [Stmt.namelessIn, reduceCtorEq, Nameless.Stmt.assign.injEq] at h
      obtain ⟨hxs, he⟩ := h
      exact .assign (Expr.matches_of_nameless_eq e _ he) ((Matching.forall₂_ofScopes xs _).mpr hxs)
  | .declare vars e, t, _, _, h => by
      cases t <;> simp only [Stmt.namelessIn, reduceCtorEq, Nameless.Stmt.declare.injEq] at h
      obtain ⟨htypes, he⟩ := h
      exact .declare (Expr.matchesOption_of_nameless_eq e _ he) htypes
  | .define f ps rs body, t, _, _, h => by
      cases t <;> simp only [Stmt.namelessIn, reduceCtorEq, Nameless.Stmt.define.injEq] at h
      obtain ⟨rfl, hps, hrs, hbody⟩ := h
      have hmatch := Block.matches_of_nameless_eq body _ hbody
      rw [Matching.ofScopes_behind (TypedName.length_names_append hps hrs)] at hmatch
      exact .define f hps hrs hmatch
  | .branch c body, t, _, _, h => by
      cases t <;> simp only [Stmt.namelessIn, reduceCtorEq, Nameless.Stmt.branch.injEq] at h
      obtain ⟨hc, hbody⟩ := h
      exact .branch (Expr.matches_of_nameless_eq c _ hc) (Block.matches_of_nameless_eq body _ hbody)
  | .switch e cases, t, _, _, h => by
      cases t <;> simp only [Stmt.namelessIn, reduceCtorEq, Nameless.Stmt.switch.injEq] at h
      obtain ⟨he, hcases⟩ := h
      exact .switch (Expr.matches_of_nameless_eq e _ he)
        (Case.matches_of_nameless_eq cases _ hcases)
  | .loop pre c post body, t, _, _, h => by
      cases t <;> simp only [Stmt.namelessIn, reduceCtorEq, Nameless.Stmt.loop.injEq] at h
      obtain ⟨hpre, hc, hpost, hbody⟩ := h
      have hpre := Block.matches_of_nameless_eq pre _ hpre
      have hc := Expr.matches_of_nameless_eq c _ hc
      have hpost := Block.matches_of_nameless_eq post _ hpost
      have hbody := Block.matches_of_nameless_eq body _ hbody
      -- Both first blocks declare equally many names, so what follows is matched behind them.
      rw [Matching.ofScopes_behind hpre.length_declared] at hc hpost hbody
      exact .loop hpre hc hpost hbody
  | .break, t, _, _, h => by
      cases t <;> simp only [Stmt.namelessIn, reduceCtorEq] at h
      exact .break
  | .continue, t, _, _, h => by
      cases t <;> simp only [Stmt.namelessIn, reduceCtorEq] at h
      exact .continue
  | .leave, t, _, _, h => by
      cases t <;> simp only [Stmt.namelessIn, reduceCtorEq] at h
      exact .leave
  | .block body, t, _, _, h => by
      cases t <;> simp only [Stmt.namelessIn, reduceCtorEq, Nameless.Stmt.block.injEq] at h
      exact .block (Block.matches_of_nameless_eq body _ h)

theorem Block.matches_of_nameless_eq : (b c : List Stmt) → {scope scope' : List String} →
    Block.namelessIn scope b = Block.namelessIn scope' c →
    Block.Matches (.ofScopes scope scope') b c
  | [], [], _, _, _ => .nil
  | [], _ :: _, _, _, h => nomatch h
  | _ :: _, [], _, _, h => nomatch h
  | s :: b, t :: c, _, _, h => by
      obtain ⟨hs, hrest⟩ := List.cons.inj h
      have hs := Stmt.matches_of_nameless_eq s t hs
      have hrest := Block.matches_of_nameless_eq b c hrest
      rw [Matching.ofScopes_behind hs.length_declared] at hrest
      exact .cons hs hrest

theorem Case.matches_of_nameless_eq : (cs ds : List Case) → {scope scope' : List String} →
    Case.namelessIn scope cs = Case.namelessIn scope' ds →
    Case.Matches (.ofScopes scope scope') cs ds
  | [], [], _, _, _ => .nil
  | [], ⟨_, _⟩ :: _, _, _, h => nomatch h
  | ⟨_, _⟩ :: _, [], _, _, h => nomatch h
  | ⟨value, body⟩ :: cs, ⟨value', body'⟩ :: ds, _, _, h => by
      obtain ⟨hcase, hrest⟩ := List.cons.inj h
      obtain ⟨rfl, hbody⟩ := Nameless.Case.mk.inj hcase
      exact .cons value (Block.matches_of_nameless_eq body body' hbody)
        (Case.matches_of_nameless_eq cs ds hrest)

end

/-- Statements are equal up to declared names exactly when they have the same nameless form.
So this equality is reflexive, symmetric and transitive, whatever the statements declare. -/
theorem Stmt.alphaEq_iff_nameless_eq :
    (∀ s t : Stmt, s.alphaEq t = true ↔ s.nameless = t.nameless) ∧
      Equivalence fun s t : Stmt => s.alphaEq t = true := by
  have hform (s t : Stmt) : s.alphaEq t = true ↔ s.nameless = t.nameless := by
    rw [Stmt.alphaEq_iff, ← Matching.ofScopes_nil]
    exact ⟨Stmt.Matches.nameless_eq, Stmt.matches_of_nameless_eq s t⟩
  refine ⟨hform, fun s => ?_, fun {s t} hst => ?_, fun {s t u} hst htu => ?_⟩
  · exact (hform s s).mpr rfl
  · exact (hform t s).mpr ((hform s t).mp hst).symm
  · exact (hform s u).mpr (((hform s t).mp hst).trans ((hform t u).mp htu))

end SwitchHoist
