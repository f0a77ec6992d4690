import SwitchHoist.Proofs.LinkedStates

/-!
# Matching statements do the same

Statements that match under the matching of some links take linked states to linked
states and end alike, whatever the bound on loops.  What they declare is linked
afterwards.
-/

namespace SwitchHoist

variable {W : World}

/-! ## Expressions -/

mutual

theorem Expr.Matches.eval_eq {read read' : String → W.Value} :
    {M : Matching} → (∀ x y, M x y → read x = read' y) → {e f : Expr} → e.Matches M f →
      ∀ n t, e.eval W read n t = f.eval W read' n t
  | _, _, _, _, .literal _, _, _ => rfl
  | _, hread, _, _, .variable hxy, n, t => by simp only [Expr.eval, hread _ _ hxy]
  | _, hread, _, _, .call f hargs, n, t => by simp only [Expr.eval, hargs.evalArgs_eq hread t]

theorem Expr.MatchesAll.evalArgs_eq {read read' : String → W.Value} :
    {M : Matching} → (∀ x y, M x y → read x = read' y) → {es fs : List Expr} →
      Expr.MatchesAll M es fs → ∀ t, Expr.evalArgs W read es t = Expr.evalArgs W read' fs t
  | _, _, _, _, .nil, _ => rfl
  | _, hread, _, _, .cons he hes, t => by
      simp only [Expr.evalArgs, he.eval_eq hread 1 t, hes.evalArgs_eq hread]

end

theorem Expr.length_eval {read : String → W.Value} {e : Expr} {n : Nat} {t t' : W.Trace}
    {vs : List W.Value} (h : e.eval W read n t = some (vs, t')) : vs.length = n := by
  cases e with
  | literal l =>
      simp only [Expr.eval] at h
      split at h
      · next hn =>
          cases h
          exact hn.symm
      · cases h
  | «variable» x =>
      simp only [Expr.eval] at h
      split at h
      · next hn =>
          cases h
          exact hn.symm
      · cases h
  | call f args =>
      simp only [Expr.eval, Option.bind_eq_bind, Option.bind_eq_some_iff, Option.some_inj,
        Prod.mk.injEq] at h
      obtain ⟨_, _, rfl, _⟩ := h
      exact List.length_ofFn

theorem Expr.length_evalOption {read : String → W.Value} {e : Option Expr} {n : Nat}
    {t t' : W.Trace} {vs : List W.Value} (h : Expr.evalOption W read e n t = some (vs, t')) :
    vs.length = n := by
  cases e with
  | none =>
      cases h
      exact List.length_replicate
  | some e => exact Expr.length_eval h

variable {L : Links} {σ τ : State W}

namespace Links.Linked

theorem eval_eq (h : L.Linked σ τ) {e f : Expr} (he : e.Matches L.agree f) (n : Nat) :
    e.eval W σ.read n σ.trace = f.eval W τ.read n τ.trace := by
  rw [h.trace]
  exact he.eval_eq (fun _ _ hab => h.read hab) n τ.trace

theorem value_eq (h : L.Linked σ τ) {e f : Expr} (he : e.Matches L.agree f) :
    e.value W σ.read σ.trace = f.value W τ.read τ.trace := by
  rw [Expr.value, Expr.value, h.eval_eq he 1]

theorem evalOption_eq (h : L.Linked σ τ) {e f : Option Expr}
    (he : Expr.MatchesOption L.agree e f) (n : Nat) :
    Expr.evalOption W σ.read e n σ.trace = Expr.evalOption W τ.read f n τ.trace := by
  cases he with
  | none => rw [Expr.evalOption, Expr.evalOption, h.trace]
  | some he => exact h.eval_eq he n

end Links.Linked

theorem Expr.Matches.discarded_eq {M : Matching} {e f : Expr} (h : e.Matches M f) :
    e.discarded = f.discarded := by
  cases h <;> rfl

/-! ## Statements -/

theorem Case.Matches.map_value {M : Matching} {cs ds : List Case} (h : Case.Matches M cs ds) :
    cs.map Case.value = ds.map Case.value := by
  induction cs generalizing ds with
  | nil =>
      cases h
      rfl
  | cons c cs ih =>
      cases h with
      | cons value _ hcs => rw [List.map_cons, List.map_cons, ih hcs]

/-- Values that are the same on both sides, and what follows them. -/
theorem Links.Linked.related_bind {α : Type} {P : Links → Prop} {r r' : Option (α × W.Trace)}
    (hr : r = r') {f g : α × W.Trace → W.Result}
    (hfg : ∀ v t, r = some (v, t) → L.Related P (f (v, t)) (g (v, t))) :
    L.Related P (r.bind f) (r'.bind g) := by
  subst hr
  cases r with
  | none => exact .none
  | some r => exact hfg r.1 r.2 rfl

/-- Rounds of loops with matching conditions and bodies that do the same. -/
theorem Links.Linked.rounds {c d : Expr} (hc : c.Matches L.agree d)
    {post body post' body' : State W → W.Result}
    (hpost : ∀ σ τ, L.Linked σ τ → L.Alike (post σ) (post' τ))
    (hbody : ∀ σ τ, L.Linked σ τ → L.Alike (body σ) (body' τ)) (k : Nat)
    (h : L.Linked σ τ) :
    L.Related (· = L) (World.rounds c post body k σ) (World.rounds d post' body' k τ) := by
  induction k generalizing σ τ with
  | zero => exact .none
  | succ k ih =>
      refine related_bind (h.value_eq hc) fun v t _ => ?_
      cases hv : W.holds v with
      | false =>
          simp only [hv, Bool.false_eq_true, if_false]
          exact .normal (h.traced t) rfl
      | true =>
          simp only [hv, if_true]
          have hround := hbody _ _ (h.traced t)
          -- Both bodies end alike, so both sides leave the loop here or both go on.
          generalize body (σ.traced t) = r at hround ⊢
          generalize body' (τ.traced t) = r' at hround ⊢
          cases hround with
          | none => exact .none
          | @some o ρ ρ' hρ =>
              cases ho : o.endsLoop with
              | some o' =>
                  simp only [Option.bind_eq_bind, Option.bind_some, ho]
                  exact .some List.suffix_rfl (fun _ => rfl) hρ
              | none =>
                  simp only [Option.bind_eq_bind, Option.bind_some, ho]
                  refine (hpost ρ ρ' hρ).related.andThen fun L' σ' τ' _ hL' h' => ?_
                  subst hL'
                  exact ih h'

mutual

/-- Matching statements do the same, and what they declare is linked behind them. -/
theorem Stmt.Matches.related {n : Nat} : {M : Matching} → {s t : Stmt} → s.Matches M t →
    ∀ {L : Links} {σ τ : State W}, M = L.agree → L.Linked σ τ →
      L.Related (· = L.declare s.declared t.declared) (s.exec n σ) (t.exec n τ)
  | _, _, _, .expr he, L, σ, τ, hM, h => by
      subst hM
      rw [Stmt.exec, Stmt.exec, he.discarded_eq]
      exact Links.Linked.related_bind (h.eval_eq he _) fun _ t _ => .normal (h.traced t) rfl
  | _, _, _, .assign he hxs, L, σ, τ, hM, h => by
      subst hM
      rw [Stmt.exec, Stmt.exec, hxs.length_eq]
      exact Links.Linked.related_bind (h.eval_eq he _) fun vs t _ =>
        .normal ((h.traced t).writeAll hxs vs) rfl
  | _, _, _, .declare he htypes, L, σ, τ, hM, h => by
      subst hM
      have hlen := TypedName.length_names htypes
      simp only [TypedName.names, List.length_map] at hlen
      rw [Stmt.exec, Stmt.exec, hlen]
      refine Links.Linked.related_bind (h.evalOption_eq he _) fun vs t hvs => ?_
      have hvs := Expr.length_evalOption hvs
      refine .some (Links.suffix_declare _ _ L) (fun _ => rfl) ((h.traced t).declareAll ?_ ?_)
      · simp [Stmt.declared, TypedName.names, hvs, hlen]
      · simp [Stmt.declared, TypedName.names, hvs]
  | _, _, _, .define _ _ _ _, _, _, _, _, _ => .none
  | _, _, _, .branch hc hb, L, σ, τ, hM, h => by
      subst hM
      refine Links.Linked.related_bind (h.value_eq hc) fun v t _ => ?_
      cases hv : W.holds v with
      | false =>
          simp only [hv, Bool.false_eq_true, if_false]
          exact .normal (h.traced t) rfl
      | true =>
          simp only [hv, if_true]
          exact ((hb.related rfl (h.traced t)).inScope (h.traced t)).related
  | _, _, _, .switch he hcs, L, σ, τ, hM, h => by
      subst hM
      refine Links.Linked.related_bind (h.value_eq he) fun v t _ => ?_
      -- The values of the cases are the same, so both sides choose the same case.
      simp only [hcs.map_value]
      split
      · exact (hcs.alike rfl (h.traced t)).related
      · exact .normal (h.traced t) rfl
  | _, _, _, .loop hpre hc hpost hbody, L, σ, τ, hM, h => by
      subst hM
      rw [Stmt.exec, Stmt.exec]
      -- The whole loop is a scope. Inside it, what the first block declares is linked while the
      -- rounds run.
      refine Links.Alike.related (Links.Related.inScope (P := (fun _ => True)) ?_ h)
      refine (hpre.related rfl h).andThen fun L' σ' τ' _ hL' h' => ?_
      subst hL'
      rw [Matching.after, ← Links.agree_declare] at hc
      refine Links.Related.mono (h'.rounds hc ?_ ?_ n) fun _ _ _ => trivial
      · exact fun _ _ hρ => (hpost.related (Links.agree_declare _ _ L).symm hρ).inScope hρ
      · exact fun _ _ hρ => (hbody.related (Links.agree_declare _ _ L).symm hρ).inScope hρ
  | _, _, _, .break, L, _, _, _, h => .some List.suffix_rfl (fun _ => rfl) h
  | _, _, _, .continue, L, _, _, _, h => .some List.suffix_rfl (fun _ => rfl) h
  | _, _, _, .leave, L, _, _, _, h => .some List.suffix_rfl (fun _ => rfl) h
  | _, _, _, .block hb, L, σ, τ, hM, h => ((hb.related hM h).inScope h).related

theorem Block.Matches.related {n : Nat} : {M : Matching} → {b c : Block} → Block.Matches M b c →
    ∀ {L : Links} {σ τ : State W}, M = L.agree → L.Linked σ τ →
      L.Related (· = L.declare (Block.declared b) (Block.declared c)) (Block.exec n b σ)
        (Block.exec n c τ)
  | _, _, _, .nil, _, _, _, _, h => .normal h rfl
  | _, _, _, .cons hs hb, L, σ, τ, hM, h => by
      refine (hs.related hM h).andThen fun L' σ' τ' _ hL' h' => ?_
      subst hL'
      rw [Block.declared_cons, Block.declared_cons, Links.declare_append hs.length_declared]
      exact hb.related (by rw [Links.agree_declare, hM]) h'

theorem Case.Matches.alike {n k : Nat} : {M : Matching} → {cs ds : List Case} →
    Case.Matches M cs ds → ∀ {L : Links} {σ τ : State W}, M = L.agree → L.Linked σ τ →
      L.Alike (Case.exec n k cs σ) (Case.exec n k ds τ)
  | _, _, _, .nil, _, _, _, _, _ => by
      rw [Case.exec, Case.exec]
      exact .none
  | _, _, _, .cons _ hb hcs, L, σ, τ, hM, h => by
      cases k with
      | zero =>
          show L.Alike ((Block.exec n _ σ).inScope σ) ((Block.exec n _ τ).inScope τ)
          exact (hb.related hM h).inScope h
      | succ k =>
          show L.Alike (Case.exec n k _ σ) (Case.exec n k _ τ)
          exact hcs.alike hM h

end

end SwitchHoist
