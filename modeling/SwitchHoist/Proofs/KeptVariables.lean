import SwitchHoist.Proofs.Assignments
import SwitchHoist.Proofs.MatchingExecution

/-!
# Variables that keep their values

Code that does not assign a variable leaves its value alone.  The variable may be
hidden by one that the code declares itself, and then the code may assign that one; so
the variable is told by how many variables were declared in front of it.
-/

namespace SwitchHoist

/-- The names that code declares behind itself. -/
def Code.declared : Code → List String
  | .stmt s => s.declared
  | .stmts b => Block.declared b
  | .scope _ => []
  | .rounds .. => []

/-- Code assigns a variable declared outside it. -/
def Code.Assigns (x : String) : Code → Prop
  | .stmt s => s.Assigns x
  | .stmts b => Block.Assigns x b
  | .scope b => Block.Assigns x b
  | .rounds _ post body => Block.Assigns x post ∨ Block.Assigns x body

namespace Env

variable {α : Type}

@[simp] theorem map_fst_set (x : String) (v : α) (E : List (String × α)) :
    (set x v E).map Prod.fst = E.map Prod.fst := by
  induction E with
  | nil => rfl
  | cons p E ih =>
      rw [set]
      split
      · rfl
      · rw [List.map_cons, List.map_cons, ih]

theorem lookup_drop_set {x y : String} (hxy : x ≠ y) (v : α) (E : List (String × α)) (k : Nat) :
    List.lookup x ((set y v E).drop k) = List.lookup x (E.drop k) := by
  induction E generalizing k with
  | nil => rfl
  | cons p E ih =>
      obtain ⟨z, w⟩ := p
      rw [set]
      split
      · next hyz =>
          subst hyz
          cases k with
          | zero => rw [List.drop_zero, List.drop_zero, List.lookup_cons, List.lookup_cons,
              beq_false_of_ne hxy]
          | succ k => rfl
      · cases k with
        | zero =>
            rw [List.drop_zero, List.drop_zero, List.lookup_cons, List.lookup_cons]
            rw [show List.lookup x (set y v E) = List.lookup x E from ih 0]
        | succ k => exact ih k

theorem drop_set {x : String} {E : List (String × α)} {k : Nat}
    (hx : x ∈ (E.map Prod.fst).take k) (v : α) : (set x v E).drop k = E.drop k := by
  induction E generalizing k with
  | nil => rfl
  | cons p E ih =>
      obtain ⟨z, w⟩ := p
      cases k with
      | zero => simp at hx
      | succ k =>
          rw [set]
          split
          · rfl
          · next hxz =>
              rw [List.map_cons, List.take_succ_cons, List.mem_cons] at hx
              exact ih (hx.resolve_left hxz)

theorem lookup_isSome {x : String} {E : List (String × α)} (hx : x ∈ E.map Prod.fst) :
    (List.lookup x E).isSome = true := by
  induction E with
  | nil => simp at hx
  | cons p E ih =>
      obtain ⟨z, w⟩ := p
      rw [List.lookup_cons]
      by_cases hxz : x = z
      · rw [hxz, beq_self_eq_true]
        rfl
      · rw [beq_false_of_ne hxz]
        rw [List.map_cons, List.mem_cons] at hx
        exact ih (hx.resolve_left hxz)

end Env

namespace State

variable {W : World}

/-- The names of the declared variables, innermost first. -/
def names (σ : State W) : List String :=
  σ.env.map Prod.fst

/-- A variable of that name is declared above the lowest `i`. -/
def Above (i : Nat) (x : String) (σ : State W) : Prop :=
  x ∈ σ.names.take (σ.names.length - i)

/-- More variables are declared, and the variable of the lowest `i` or the global one
that a name means there has kept its value. -/
structure Extends (i : Nat) (x : String) (new : List String) (σ τ : State W) : Prop where
  names : τ.names = new ++ σ.names
  outer : (τ.restore i).read x = (σ.restore i).read x

variable {i : Nat} {x : String} {σ ρ τ : State W}

theorem length_names (σ : State W) : σ.names.length = σ.env.length :=
  List.length_map _

theorem Extends.refl (σ : State W) : Extends i x [] σ σ :=
  ⟨rfl, rfl⟩

theorem Extends.trans {new new' : List String} (h : Extends i x new σ ρ)
    (h' : Extends i x new' ρ τ) : Extends i x (new' ++ new) σ τ where
  names := by rw [h'.names, h.names, List.append_assoc]
  outer := h'.outer.trans h.outer

theorem Extends.length_le {new : List String} (h : Extends i x new σ τ) :
    σ.env.length ≤ τ.env.length := by
  have hlen := congrArg List.length h.names
  rw [List.length_append, length_names, length_names] at hlen
  omega

/-- The variables above a level are the new ones and those that were above it before. -/
theorem Extends.above_iff {new : List String} (h : Extends i x new σ τ) (hi : i ≤ σ.env.length) :
    τ.Above i x ↔ x ∈ new ∨ σ.Above i x := by
  have hlen : (new ++ σ.names).length - i = new.length + (σ.names.length - i) := by
    rw [List.length_append, length_names]
    omega
  rw [Above, h.names, hlen, List.take_length_add_append, List.mem_append, Above]

theorem Extends.above {new : List String} (h : Extends i x new σ τ) (hi : i ≤ σ.env.length)
    (hx : σ.Above i x) : τ.Above i x :=
  (h.above_iff hi).mpr (Or.inr hx)

/-- What code assigns behind new variables of its own: either one of them hides the
variable, or the code may not assign it. -/
theorem Extends.above_or {new xs : List String} {P Q : Prop} (h : Extends i x new σ τ)
    (hi : i ≤ σ.env.length) (hnew : new = xs.reverse) (hP : x ∉ xs ∧ Q → P)
    (hx : σ.Above i x ∨ ¬ P) : τ.Above i x ∨ ¬ Q := by
  rcases hx with hx | hx
  · exact Or.inl (h.above hi hx)
  · by_cases hmem : x ∈ xs
    · left
      rw [h.above_iff hi, hnew, List.mem_reverse]
      exact Or.inl hmem
    · exact Or.inr fun hq => hx (hP ⟨hmem, hq⟩)

theorem extends_traced (σ : State W) (t : W.Trace) : Extends i x [] σ (σ.traced t) :=
  ⟨rfl, rfl⟩

theorem Extends.of_traced {new : List String} {t : W.Trace} (h : Extends i x new (σ.traced t) τ) :
    Extends i x new σ τ :=
  ⟨h.names, h.outer⟩

/-- The end of a scope drops what was declared in it. -/
theorem Extends.restore {new : List String} (h : Extends i x new σ τ) (hi : i ≤ σ.env.length) :
    Extends i x [] σ (τ.restore σ.env.length) where
  names := by
    have hlen := congrArg List.length h.names
    rw [List.length_append, length_names, length_names] at hlen
    have hdrop : τ.env.length - σ.env.length = new.length := by omega
    rw [State.names, State.restore, hdrop, List.map_drop, ← State.names, h.names,
      List.drop_left]
    rfl
  outer := by
    have hle := h.length_le
    -- The scope was opened above the lowest `i`, so dropping twice drops the same.
    have hrestore : (τ.restore σ.env.length).restore i = τ.restore i := by
      simp only [State.restore, List.length_drop, List.drop_drop]
      congr 2
      omega
    rw [hrestore, h.outer]

theorem extends_declareAll {xs : List String} {vs : List W.Value} (hlen : xs.length = vs.length)
    (hi : i ≤ σ.env.length) : Extends i x xs.reverse σ (σ.declareAll xs vs) := by
  induction xs generalizing vs σ with
  | nil =>
      rw [List.eq_nil_of_length_eq_zero hlen.symm]
      exact .refl σ
  | cons y xs ih =>
      cases vs with
      | nil => simp at hlen
      | cons v vs =>
          have hdeclare : Extends i x [y] σ (σ.declare y v) := by
            refine ⟨rfl, ?_⟩
            have hsucc : σ.env.length + 1 - i = (σ.env.length - i) + 1 := by omega
            simp only [State.restore, State.declare, List.length_cons, hsucc, List.drop_succ_cons]
          rw [List.reverse_cons]
          show Extends i x (xs.reverse ++ [y]) σ ((σ.declare y v).declareAll xs vs)
          exact hdeclare.trans (ih (Nat.succ.inj hlen) (Nat.le_succ_of_le hi))

/-- An assignment of another variable, or of an inner variable of the same name. -/
theorem extends_write {y : String} (hy : σ.Above i x ∨ x ≠ y) (v : W.Value) :
    Extends i x [] σ (σ.write y v) := by
  unfold State.write
  split
  · refine ⟨Env.map_fst_set y v σ.env, ?_⟩
    have hlen : (Env.set y v σ.env).length = σ.env.length := by
      rw [← List.length_map (f := Prod.fst), Env.map_fst_set, List.length_map]
    simp only [State.read, State.restore, hlen]
    -- A variable of the same name takes the value instead, and it stands above the lowest `i`.
    by_cases hxy : x = y
    · subst hxy
      have habove := hy.resolve_right fun hne => hne rfl
      rw [Above, length_names] at habove
      rw [Env.drop_set habove]
    · rw [Env.lookup_drop_set hxy]
  · next hnone =>
      refine ⟨rfl, ?_⟩
      have hxy : x ≠ y := by
        rcases hy with habove | hxy
        · rintro rfl
          exact hnone (Env.lookup_isSome (List.mem_of_mem_take habove))
        · exact hxy
      simp only [State.read, State.restore, Function.update_of_ne hxy]

theorem extends_writeAll {ys : List String} (hys : σ.Above i x ∨ x ∉ ys) (vs : List W.Value)
    (hi : i ≤ σ.env.length) : Extends i x [] σ (σ.writeAll ys vs) := by
  induction ys generalizing vs σ with
  | nil => exact .refl σ
  | cons y ys ih =>
      cases vs with
      | nil => exact .refl σ
      | cons v vs =>
          have hfirst : Extends i x [] σ (σ.write y v) :=
            extends_write (hys.imp_right fun h hxy => h (hxy ▸ List.mem_cons_self ..)) v
          have hrest : (σ.write y v).Above i x ∨ x ∉ ys :=
            hys.imp (hfirst.above hi) fun h hx => h (List.mem_cons_of_mem _ hx)
          show Extends i x ([] ++ []) σ ((σ.write y v).writeAll ys vs)
          exact hfirst.trans (ih hrest vs (Nat.le_trans hi hfirst.length_le))

end State

variable {W : World}

/-- Code that does not assign a variable declared outside it, or stands below another
variable of that name, leaves the value of the outer variable alone.  Only statements
that end early can declare less than they say. -/
theorem Runs.keeps {code : Code} {σ τ : State W} {o : Outcome} (h : Runs W code σ o τ) {i : Nat}
    {x : String} (hi : i ≤ σ.env.length) (hx : σ.Above i x ∨ ¬ code.Assigns x) :
    ∃ new, State.Extends i x new σ τ ∧
      ((∀ b, code = .stmts b → o = .normal) → new = code.declared.reverse) := by
  have hscope : ∀ {b : Block} {o : Outcome}, ∀ b', Code.scope b = .stmts b' → o = .normal :=
    nofun
  induction h with
  | expr => exact ⟨[], State.extends_traced _ _, fun _ => rfl⟩
  | @assign targets e σ vs t _ =>
      have hx' : (σ.traced t).Above i x ∨ x ∉ targets := hx
      exact ⟨[], .of_traced (State.extends_writeAll hx' vs hi), fun _ => rfl⟩
  | declare he =>
      have hlen : (TypedName.names _).length = _ :=
        (List.length_map _).trans (Expr.length_evalOption he).symm
      exact ⟨_, .of_traced (State.extends_declareAll hlen hi), fun _ => rfl⟩
  | branch _ _ _ ih =>
      obtain ⟨new, hnew, hend⟩ := ih hi hx
      exact ⟨new, hnew.of_traced, fun _ => hend hscope⟩
  | branchSkipped => exact ⟨[], State.extends_traced _ _, fun _ => rfl⟩
  | switch _ _ hc _ ih =>
      have hx' := hx.imp_right fun h hbody =>
        h (Case.assigns_iff.mpr ⟨_, List.mem_of_getElem? hc, hbody⟩)
      obtain ⟨new, hnew, hend⟩ := ih hi hx'
      exact ⟨new, hnew.of_traced, fun _ => hend hscope⟩
  | switchSkipped => exact ⟨[], State.extends_traced _ _, fun _ => rfl⟩
  | loop _ _ ihpre ihrounds =>
      have hxpre := hx.imp_right fun h hpre => h (Or.inl hpre)
      obtain ⟨new, hnew, hend⟩ := ihpre hi hxpre
      have hi' := Nat.le_trans hi hnew.length_le
      -- What the first block declares stands in front of the rounds and may hide the variable.
      have hxrounds := hnew.above_or hi (hend fun _ _ => rfl) (fun h => Or.inr h) hx
      obtain ⟨new', hnew', -⟩ := ihrounds hi' hxrounds
      exact ⟨[], (hnew.trans hnew').restore hi, fun _ => rfl⟩
  | loopLeft _ ho ih =>
      have hxpre := hx.imp_right fun h hpre => h (Or.inl hpre)
      obtain ⟨new, hnew, -⟩ := ih hi hxpre
      exact ⟨[], hnew.restore hi, fun _ => rfl⟩
  | «break» => exact ⟨[], .refl _, fun _ => rfl⟩
  | «continue» => exact ⟨[], .refl _, fun _ => rfl⟩
  | leave => exact ⟨[], .refl _, fun _ => rfl⟩
  | block _ ih =>
      obtain ⟨new, hnew, hend⟩ := ih hi hx
      exact ⟨new, hnew, fun _ => hend hscope⟩
  | nil => exact ⟨[], .refl _, fun _ => rfl⟩
  | cons _ _ ihs ihb =>
      have hxs := hx.imp_right fun h hs => h (Or.inl hs)
      obtain ⟨new, hnew, hend⟩ := ihs hi hxs
      have hi' := Nat.le_trans hi hnew.length_le
      have hxb := hnew.above_or hi (hend nofun) (fun h => Or.inr h) hx
      obtain ⟨new', hnew', hend'⟩ := ihb hi' hxb
      refine ⟨new' ++ new, hnew.trans hnew', fun ho => ?_⟩
      rw [hend' fun _ _ => ho _ rfl, hend nofun, ← List.reverse_append]
      rfl
  | consLeft _ ho ih =>
      have hxs := hx.imp_right fun h hs => h (Or.inl hs)
      obtain ⟨new, hnew, -⟩ := ih hi hxs
      -- A sequence that is left early need not have declared all its names.
      exact ⟨new, hnew, fun hnormal => absurd (hnormal _ rfl) ho⟩
  | scope _ ih =>
      obtain ⟨new, hnew, -⟩ := ih hi hx
      exact ⟨[], hnew.restore hi, fun _ => rfl⟩
  | done => exact ⟨[], State.extends_traced _ _, fun _ => rfl⟩
  | bodyLeft _ _ _ _ ih =>
      obtain ⟨new, hnew, hend⟩ := ih hi (hx.imp_right fun h hbody => h (Or.inr hbody))
      exact ⟨new, hnew.of_traced, fun _ => hend hscope⟩
  | postLeft _ _ _ _ _ _ ihbody ihpost =>
      obtain ⟨new, hnew, hend⟩ := ihbody hi (hx.imp_right fun h hbody => h (Or.inr hbody))
      obtain rfl := hend hscope
      have hi' := Nat.le_trans hi hnew.length_le
      obtain ⟨new', hnew', hend'⟩ :=
        ihpost hi' (hx.imp (hnew.of_traced.above hi) fun h hpost => h (Or.inl hpost))
      exact ⟨new' ++ [], hnew.of_traced.trans hnew', fun _ => by rw [hend' hscope]; rfl⟩
  | round _ _ _ _ _ _ ihbody ihpost ihrounds =>
      obtain ⟨new, hnew, hend⟩ := ihbody hi (hx.imp_right fun h hbody => h (Or.inr hbody))
      -- Body and second block are scopes, and leave nothing declared for the next round.
      obtain rfl := hend hscope
      have hi' := Nat.le_trans hi hnew.length_le
      obtain ⟨new', hnew', hend'⟩ :=
        ihpost hi' (hx.imp (hnew.of_traced.above hi) fun h hpost => h (Or.inl hpost))
      obtain rfl := hend' hscope
      have hround := hnew.of_traced.trans hnew'
      obtain ⟨new'', hnew'', hend''⟩ :=
        ihrounds (Nat.le_trans hi hround.length_le) (hx.imp_left (hround.above hi))
      exact ⟨new'' ++ [], hround.trans hnew'', fun _ => by rw [hend'' nofun]; rfl⟩

theorem State.read_of_not_mem {σ τ : State W} {new : List String} {x : String}
    (h : State.Extends σ.env.length x new σ τ) (hx : x ∉ new) : τ.read x = σ.read x := by
  have hlookup : ∀ (E : List (String × W.Value)) (k : Nat), x ∉ (E.map Prod.fst).take k →
      List.lookup x E = List.lookup x (E.drop k) := by
    intro E k hE
    induction E generalizing k with
    | nil => rw [List.drop_nil]
    | cons p E ih =>
        cases k with
        | zero => rfl
        | succ k =>
            rw [List.map_cons, List.take_succ_cons, List.mem_cons, not_or] at hE
            rw [List.lookup_cons, beq_false_of_ne hE.1, List.drop_succ_cons]
            exact ih k hE.2
  have hlen := congrArg List.length h.names
  rw [List.length_append, State.length_names, State.length_names] at hlen
  have hdrop : τ.env.length - σ.env.length = new.length := by omega
  have hnew : x ∉ (τ.env.map Prod.fst).take new.length := by
    rw [← State.names, h.names, List.take_left]
    exact hx
  have houter := h.outer
  simp only [State.read, State.restore, hdrop, Nat.sub_self, List.drop_zero] at houter
  rw [State.read, State.read, ← houter, hlookup τ.env new.length hnew]

/-- Statements that neither declare nor assign a variable leave its value alone. -/
theorem Block.read_of_exec {n : Nat} {b : Block} {σ τ : State W}
    (h : Block.exec n b σ = some (.normal, τ)) {x : String} (hdeclared : x ∉ Block.declared b)
    (hassigns : ¬ Block.Assigns x b) : τ.read x = σ.read x := by
  obtain ⟨new, hnew, hend⟩ :=
    (Block.runs_of_exec b h).keeps (Nat.le_refl _) (Or.inr hassigns)
  refine State.read_of_not_mem hnew ?_
  rw [hend fun _ _ => rfl, List.mem_reverse]
  exact hdeclared

end SwitchHoist
