import SwitchHoist.Proofs.Execution

/-!
# Execution with bounded loops

With a bound on the rounds of every loop, execution is a function that follows the
statements.  It has a result for some bound exactly when the code runs, so what two
programs compute under every bound is what they do when they run.
-/

namespace SwitchHoist

variable (W : World)

/-- How code ends and the state it leaves, if it ends. -/
abbrev World.Result := Option (Outcome × State W)

variable {W}

/-- What a scope does with the result of its statements. -/
def World.Result.inScope (σ : State W) (result : W.Result) : W.Result :=
  result.map fun r => (r.1, r.2.restore σ.env.length)

/-- One statement sequence after another. -/
def World.Result.andThen (result : W.Result) (next : State W → W.Result) : W.Result :=
  match result with
  | some (.normal, σ) => next σ
  | result => result

/-- At most `k` rounds of a loop. -/
def World.rounds (c : Expr) (post body : State W → W.Result) : Nat → State W → W.Result
  | 0, _ => none
  | k + 1, σ => do
      let (v, t) ← c.value W σ.read σ.trace
      if W.holds v then
        let (o, ρ) ← body (σ.traced t)
        match o.endsLoop with
        | some o' => some (o', ρ)
        | none => World.Result.andThen (post ρ) (World.rounds c post body k)
      else some (.normal, σ.traced t)

mutual

/-- The result of a statement with at most `n` rounds in every loop. -/
def Stmt.exec (n : Nat) : Stmt → State W → W.Result
  | .expr e, σ => do
      let (_, t) ← e.eval W σ.read e.discarded σ.trace
      some (.normal, σ.traced t)
  | .assign targets e, σ => do
      let (vs, t) ← e.eval W σ.read targets.length σ.trace
      some (.normal, (σ.traced t).writeAll targets vs)
  | .declare vars e, σ => do
      let (vs, t) ← Expr.evalOption W σ.read e vars.length σ.trace
      some (.normal, (σ.traced t).declareAll (TypedName.names vars) vs)
  | .define .., _ => none
  | .branch c body, σ => do
      let (v, t) ← c.value W σ.read σ.trace
      if W.holds v then (Block.exec n body (σ.traced t)).inScope (σ.traced t)
      else some (.normal, σ.traced t)
  | .switch e cases, σ => do
      let (v, t) ← e.value W σ.read σ.trace
      match W.chosen v (cases.map Case.value) with
      | some k => Case.exec n k cases (σ.traced t)
      | none => some (.normal, σ.traced t)
  | .loop pre c post body, σ =>
      ((Block.exec n pre σ).andThen
        (World.rounds c (fun ρ => (Block.exec n post ρ).inScope ρ)
          (fun ρ => (Block.exec n body ρ).inScope ρ) n)).inScope σ
  | .break, σ => some (.break, σ)
  | .continue, σ => some (.continue, σ)
  | .leave, σ => some (.leave, σ)
  | .block body, σ => (Block.exec n body σ).inScope σ

/-- The result of the statements of a scope, before its end. -/
def Block.exec (n : Nat) : List Stmt → State W → W.Result
  | [], σ => some (.normal, σ)
  | s :: rest, σ => (s.exec n σ).andThen (Block.exec n rest)

/-- The result of one of some cases. -/
def Case.exec (n : Nat) : Nat → List Case → State W → W.Result
  | _, [], _ => none
  | 0, ⟨_, body⟩ :: _, σ => (Block.exec n body σ).inScope σ
  | k + 1, _ :: rest, σ => Case.exec n k rest σ

end

namespace World.Result

theorem inScope_eq_some {σ : State W} {result : W.Result} {o : Outcome} {τ : State W} :
    result.inScope σ = some (o, τ) ↔
      ∃ ρ, result = some (o, ρ) ∧ τ = ρ.restore σ.env.length := by
  cases result with
  | none => simp [inScope]
  | some r =>
      obtain ⟨o', ρ⟩ := r
      simp only [inScope, Option.map_some, Option.some_inj, Prod.mk.injEq]
      grind

theorem andThen_eq_some {result : W.Result} {next : State W → W.Result} {o : Outcome}
    {τ : State W} :
    result.andThen next = some (o, τ) ↔
      (∃ ρ, result = some (.normal, ρ) ∧ next ρ = some (o, τ)) ∨
        result = some (o, τ) ∧ o ≠ .normal := by
  cases result with
  | none => simp [andThen]
  | some r =>
      obtain ⟨o', ρ⟩ := r
      cases o' with
      | normal =>
          simp only [andThen, Option.some_inj, Prod.mk.injEq, true_and, exists_eq_left']
          grind
      | _ =>
          simp only [andThen, Option.some_inj, Prod.mk.injEq, reduceCtorEq, false_and,
            exists_false, false_or]
          grind

end World.Result

/-! ## What is computed runs -/

/-- One round or the end of a loop. -/
theorem World.rounds_succ_eq_some {c : Expr} {post body : State W → W.Result} {k : Nat}
    {σ τ : State W} {o : Outcome} :
    World.rounds c post body (k + 1) σ = some (o, τ) ↔
      ∃ v t, c.value W σ.read σ.trace = some (v, t) ∧
        (W.holds v = false ∧ o = .normal ∧ τ = σ.traced t ∨
          W.holds v = true ∧ ∃ o' ρ, body (σ.traced t) = some (o', ρ) ∧
            (o'.endsLoop = some o ∧ τ = ρ ∨
              o'.endsLoop = none ∧
                World.Result.andThen (post ρ) (World.rounds c post body k) = some (o, τ))) := by
  simp only [World.rounds, Option.bind_eq_bind, Option.bind_eq_some_iff, Prod.exists]
  refine exists_congr fun v => exists_congr fun t => and_congr_right fun _ => ?_
  cases hv : W.holds v with
  | false => simp [eq_comm]
  | true =>
      simp only [if_true, Option.bind_eq_some_iff, Prod.exists, Bool.true_eq_false, false_and,
        false_or, true_and]
      refine exists_congr fun o' => exists_congr fun ρ => and_congr_right fun _ => ?_
      cases o'.endsLoop with
      | none => simp
      | some o'' => simp [eq_comm]

theorem World.runs_rounds {c : Expr} {post body : Block} {n : Nat}
    (hpost : ∀ {σ o τ}, Block.exec n post σ = some (o, τ) → Runs W (.stmts post) σ o τ)
    (hbody : ∀ {σ o τ}, Block.exec n body σ = some (o, τ) → Runs W (.stmts body) σ o τ)
    (k : Nat) {σ τ : State W} {o : Outcome}
    (h : World.rounds c (fun ρ => (Block.exec n post ρ).inScope ρ)
      (fun ρ => (Block.exec n body ρ).inScope ρ) k σ = some (o, τ)) :
    Runs W (.rounds c post body) σ o τ := by
  -- Both blocks run in scopes of their own.
  have hscope : ∀ {b : Block} {σ τ : State W} {o : Outcome},
      (∀ {σ o τ}, Block.exec n b σ = some (o, τ) → Runs W (.stmts b) σ o τ) →
      (Block.exec n b σ).inScope σ = some (o, τ) → Runs W (.scope b) σ o τ := by
    intro b σ τ o hb hr
    obtain ⟨ρ, hρ, rfl⟩ := World.Result.inScope_eq_some.mp hr
    exact .scope (hb hρ)
  induction k generalizing σ with
  | zero => simp [World.rounds] at h
  | succ k ih =>
      obtain ⟨v, t, hc, hend | ⟨hv, o', ρ, hρ, hleft | ⟨hends, hnext⟩⟩⟩ :=
        World.rounds_succ_eq_some.mp h
      · obtain ⟨hv, rfl, rfl⟩ := hend
        exact .done hc hv
      · obtain ⟨hends, rfl⟩ := hleft
        exact .bodyLeft hc hv (hscope hbody hρ) hends
      · rcases World.Result.andThen_eq_some.mp hnext with ⟨ρ', hρ', hrounds⟩ | ⟨hpost', ho⟩
        · exact .round hc hv (hscope hbody hρ) hends (hscope hpost hρ') (ih hrounds)
        · exact .postLeft hc hv (hscope hbody hρ) hends (hscope hpost hpost') ho

mutual

/-- A statement runs as its bounded execution says. -/
theorem Stmt.runs_of_exec {n : Nat} : (s : Stmt) → {σ τ : State W} → {o : Outcome} →
    s.exec n σ = some (o, τ) → Runs W (.stmt s) σ o τ
  | .expr e, σ, τ, o, h => by
      simp only [Stmt.exec, Option.bind_eq_bind, Option.bind_eq_some_iff, Option.some_inj,
        Prod.mk.injEq] at h
      obtain ⟨⟨vs, t⟩, he, rfl, rfl⟩ := h
      exact .expr he
  | .assign targets e, σ, τ, o, h => by
      simp only [Stmt.exec, Option.bind_eq_bind, Option.bind_eq_some_iff, Option.some_inj,
        Prod.mk.injEq] at h
      obtain ⟨⟨vs, t⟩, he, rfl, rfl⟩ := h
      exact .assign he
  | .declare vars e, σ, τ, o, h => by
      simp only [Stmt.exec, Option.bind_eq_bind, Option.bind_eq_some_iff, Option.some_inj,
        Prod.mk.injEq] at h
      obtain ⟨⟨vs, t⟩, he, rfl, rfl⟩ := h
      exact .declare he
  | .define .., _, _, _, h => by simp [Stmt.exec] at h
  | .branch c body, σ, τ, o, h => by
      simp only [Stmt.exec, Option.bind_eq_bind, Option.bind_eq_some_iff] at h
      obtain ⟨⟨v, t⟩, hc, h⟩ := h
      cases hv : W.holds v with
      | true =>
          rw [hv, if_pos rfl, World.Result.inScope_eq_some] at h
          obtain ⟨ρ, hρ, rfl⟩ := h
          exact .branch hc hv (.scope (Block.runs_of_exec body hρ))
      | false =>
          simp only [hv, Bool.false_eq_true, if_false, Option.some_inj, Prod.mk.injEq] at h
          obtain ⟨rfl, rfl⟩ := h
          exact .branchSkipped hc hv
  | .switch e cases, σ, τ, o, h => by
      simp only [Stmt.exec, Option.bind_eq_bind, Option.bind_eq_some_iff] at h
      obtain ⟨⟨v, t⟩, he, h⟩ := h
      cases hk : W.chosen v (cases.map Case.value) with
      | some k =>
          simp only [hk] at h
          obtain ⟨c, hc, hruns⟩ := Case.runs_of_exec cases h
          exact .switch he hk hc hruns
      | none =>
          simp only [hk, Option.some_inj, Prod.mk.injEq] at h
          obtain ⟨rfl, rfl⟩ := h
          exact .switchSkipped he hk
  | .loop pre c post body, σ, τ, o, h => by
      rw [Stmt.exec, World.Result.inScope_eq_some] at h
      obtain ⟨ρ, h, rfl⟩ := h
      rcases World.Result.andThen_eq_some.mp h with ⟨ρ', hpre, hrounds⟩ | ⟨hpre, ho⟩
      · exact .loop (Block.runs_of_exec pre hpre)
          (World.runs_rounds (Block.runs_of_exec post) (Block.runs_of_exec body) n hrounds)
      · exact .loopLeft (Block.runs_of_exec pre hpre) ho
  | .break, σ, τ, o, h => by
      cases h
      exact .break
  | .continue, σ, τ, o, h => by
      cases h
      exact .continue
  | .leave, σ, τ, o, h => by
      cases h
      exact .leave
  | .block body, σ, τ, o, h => by
      obtain ⟨ρ, hρ, rfl⟩ := World.Result.inScope_eq_some.mp h
      exact .block (.scope (Block.runs_of_exec body hρ))

theorem Block.runs_of_exec {n : Nat} : (b : List Stmt) → {σ τ : State W} → {o : Outcome} →
    Block.exec n b σ = some (o, τ) → Runs W (.stmts b) σ o τ
  | [], σ, τ, o, h => by
      cases h
      exact .nil
  | s :: rest, σ, τ, o, h => by
      rcases World.Result.andThen_eq_some.mp h with ⟨ρ, hs, hrest⟩ | ⟨hs, ho⟩
      · exact .cons (Stmt.runs_of_exec s hs) (Block.runs_of_exec rest hrest)
      · exact .consLeft (Stmt.runs_of_exec s hs) ho

theorem Case.runs_of_exec {n k : Nat} : (cases : List Case) → {σ τ : State W} → {o : Outcome} →
    Case.exec n k cases σ = some (o, τ) →
    ∃ c, cases[k]? = some c ∧ Runs W (.scope c.body) σ o τ
  | [], σ, τ, o, h => by simp [Case.exec] at h
  | ⟨value, body⟩ :: rest, σ, τ, o, h => by
      cases k with
      | zero =>
          obtain ⟨ρ, hρ, rfl⟩ := World.Result.inScope_eq_some.mp h
          exact ⟨⟨value, body⟩, rfl, .scope (Block.runs_of_exec body hρ)⟩
      | succ k => exact Case.runs_of_exec rest h

end

/-! ## What runs is computed -/

/-- The result of code with at most `n` rounds in every loop inside it, and with at most
`k` rounds of its own. -/
def Code.exec (n k : Nat) : Code → State W → W.Result
  | .stmt s, σ => s.exec n σ
  | .stmts b, σ => Block.exec n b σ
  | .scope b, σ => (Block.exec n b σ).inScope σ
  | .rounds c post body, σ =>
      World.rounds c (fun ρ => (Block.exec n post ρ).inScope ρ)
        (fun ρ => (Block.exec n body ρ).inScope ρ) k σ

theorem World.Result.andThen_left {o : Outcome} {σ : State W} (ho : o ≠ .normal)
    (next : State W → W.Result) : World.Result.andThen (some (o, σ)) next = some (o, σ) :=
  World.Result.andThen_eq_some.mpr (Or.inr ⟨rfl, ho⟩)

theorem Case.exec_getElem {n k : Nat} {cases : List Case} {c : Case} (hc : cases[k]? = some c)
    (σ : State W) : Case.exec n k cases σ = (Block.exec n c.body σ).inScope σ := by
  induction cases generalizing k with
  | nil => simp at hc
  | cons d rest ih =>
      obtain ⟨value, body⟩ := d
      cases k with
      | zero =>
          cases hc
          rfl
      | succ k =>
          show Case.exec n k rest σ = (Block.exec n c.body σ).inScope σ
          exact ih hc

/-- Code that runs has its result under every bound that is large enough. -/
theorem Runs.exists_exec {code : Code} {σ τ : State W} {o : Outcome} (h : Runs W code σ o τ) :
    ∃ n, ∀ m ≥ n, ∀ k ≥ n, code.exec m k σ = some (o, τ) := by
  induction h with
  | expr he => exact ⟨0, fun m _ k _ => by simp [Code.exec, Stmt.exec, he]⟩
  | assign he => exact ⟨0, fun m _ k _ => by simp [Code.exec, Stmt.exec, he]⟩
  | declare he => exact ⟨0, fun m _ k _ => by simp [Code.exec, Stmt.exec, he]⟩
  | branch hc hv _ ih =>
      obtain ⟨n, hn⟩ := ih
      refine ⟨n, fun m hm k hk => ?_⟩
      have hbody := hn m hm k hk
      simp only [Code.exec] at hbody
      simp [Code.exec, Stmt.exec, hc, hv, hbody]
  | branchSkipped hc hv => exact ⟨0, fun m _ k _ => by simp [Code.exec, Stmt.exec, hc, hv]⟩
  | switch he hk hc _ ih =>
      obtain ⟨n, hn⟩ := ih
      refine ⟨n, fun m hm k hk' => ?_⟩
      have hbody := hn m hm k hk'
      simp only [Code.exec] at hbody
      simp [Code.exec, Stmt.exec, he, hk, Case.exec_getElem hc, hbody]
  | switchSkipped he hk => exact ⟨0, fun m _ k _ => by simp [Code.exec, Stmt.exec, he, hk]⟩
  | loop _ _ ihpre ihrounds =>
      obtain ⟨n, hn⟩ := ihpre
      obtain ⟨n', hn'⟩ := ihrounds
      -- Inside a statement the rounds of the loop are bounded by `m` too.
      refine ⟨max n n', fun m hm k _ => ?_⟩
      have hpre := hn m (by omega) m (by omega)
      have hrounds := hn' m (by omega) m (by omega)
      change Block.exec m _ _ = _ at hpre
      change World.rounds _ _ _ m _ = _ at hrounds
      rw [Code.exec, Stmt.exec, hpre]
      simp only [World.Result.andThen, hrounds]
      rfl
  | loopLeft _ ho ihpre =>
      obtain ⟨n, hn⟩ := ihpre
      refine ⟨n, fun m hm k hk => ?_⟩
      have hpre := hn m hm k hk
      simp only [Code.exec] at hpre
      simp [Code.exec, Stmt.exec, hpre, World.Result.andThen_left ho, World.Result.inScope]
  | «break» => exact ⟨0, fun _ _ _ _ => rfl⟩
  | «continue» => exact ⟨0, fun _ _ _ _ => rfl⟩
  | leave => exact ⟨0, fun _ _ _ _ => rfl⟩
  | block _ ih => exact ih
  | nil => exact ⟨0, fun _ _ _ _ => rfl⟩
  | cons _ _ ihs ihb =>
      obtain ⟨n, hn⟩ := ihs
      obtain ⟨n', hn'⟩ := ihb
      refine ⟨max n n', fun m hm k hk => ?_⟩
      have hs := hn m (by omega) k (by omega)
      have hb := hn' m (by omega) k (by omega)
      simp only [Code.exec] at hs hb
      simp [Code.exec, Block.exec, hs, World.Result.andThen, hb]
  | consLeft _ ho ih =>
      obtain ⟨n, hn⟩ := ih
      refine ⟨n, fun m hm k hk => ?_⟩
      have hs := hn m hm k hk
      simp only [Code.exec] at hs
      simp [Code.exec, Block.exec, hs, World.Result.andThen_left ho]
  | scope _ ih =>
      obtain ⟨n, hn⟩ := ih
      refine ⟨n, fun m hm k hk => ?_⟩
      exact World.Result.inScope_eq_some.mpr ⟨_, hn m hm k hk, rfl⟩
  -- The last look at the condition counts as a round.
  | done hc hv =>
      refine ⟨1, fun m _ k hk => ?_⟩
      obtain ⟨k, rfl⟩ := Nat.exists_eq_add_of_le' hk
      rw [Code.exec]
      exact World.rounds_succ_eq_some.mpr ⟨_, _, hc, Or.inl ⟨hv, rfl, rfl⟩⟩
  | bodyLeft hc hv _ ho ih =>
      obtain ⟨n, hn⟩ := ih
      refine ⟨n + 1, fun m hm k hk => ?_⟩
      obtain ⟨k, rfl⟩ := Nat.exists_eq_add_of_le' (Nat.le_trans (Nat.le_add_left 1 n) hk)
      have hbody := hn m (by omega) m (by omega)
      rw [Code.exec]
      exact World.rounds_succ_eq_some.mpr
        ⟨_, _, hc, Or.inr ⟨hv, _, _, hbody, Or.inl ⟨ho, rfl⟩⟩⟩
  | postLeft hc hv _ ho _ ho' ihbody ihpost =>
      obtain ⟨n, hn⟩ := ihbody
      obtain ⟨n', hn'⟩ := ihpost
      refine ⟨max n n' + 1, fun m hm k hk => ?_⟩
      obtain ⟨k, rfl⟩ := Nat.exists_eq_add_of_le' (Nat.le_trans (Nat.le_add_left 1 _) hk)
      have hbody := hn m (by omega) m (by omega)
      have hpost := hn' m (by omega) m (by omega)
      rw [Code.exec]
      exact World.rounds_succ_eq_some.mpr ⟨_, _, hc, Or.inr ⟨hv, _, _, hbody, Or.inr ⟨ho,
        World.Result.andThen_eq_some.mpr (Or.inr ⟨hpost, ho'⟩)⟩⟩⟩
  | round hc hv _ ho _ _ ihbody ihpost ihrounds =>
      obtain ⟨n, hn⟩ := ihbody
      obtain ⟨n', hn'⟩ := ihpost
      obtain ⟨n'', hn''⟩ := ihrounds
      refine ⟨max n (max n' n'') + 1, fun m hm k hk => ?_⟩
      obtain ⟨k, rfl⟩ := Nat.exists_eq_add_of_le' (Nat.le_trans (Nat.le_add_left 1 _) hk)
      have hbody := hn m (by omega) m (by omega)
      have hpost := hn' m (by omega) m (by omega)
      -- One round is spent, so the others have to do with `k`.
      have hrounds := hn'' m (by omega) k (by omega)
      rw [Code.exec]
      exact World.rounds_succ_eq_some.mpr ⟨_, _, hc, Or.inr ⟨hv, _, _, hbody, Or.inr ⟨ho,
        World.Result.andThen_eq_some.mpr (Or.inl ⟨_, hpost, hrounds⟩)⟩⟩⟩

/-- The statements of a scope run exactly as their bounded execution says under some
bound. -/
theorem runs_scope_iff {b : Block} {σ τ : State W} {o : Outcome} :
    Runs W (.scope b) σ o τ ↔ ∃ n, (Block.exec n b σ).inScope σ = some (o, τ) := by
  constructor
  · intro h
    obtain ⟨n, hn⟩ := h.exists_exec
    exact ⟨n, hn n (Nat.le_refl n) n (Nat.le_refl n)⟩
  · rintro ⟨n, h⟩
    obtain ⟨ρ, hρ, rfl⟩ := World.Result.inScope_eq_some.mp h
    exact .scope (Block.runs_of_exec b hρ)

end SwitchHoist
