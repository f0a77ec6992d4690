import SwitchHoist.Proofs.CaseMeaning
import SwitchHoist.Proofs.EveryStatement
import SwitchHoist.Proofs.KeptVariables

/-!
# A prefix runs in front of its switch

A switch with a default case and without a call in its scrutinee runs exactly one case,
and which one is known in front of it.  Behind the prefix the scrutinee still has its
value, so the same case runs; and the case starts with statements that match the prefix.
Only the variables that the prefix declares are left over.
-/

namespace SwitchHoist

variable {W : World}

/-! ## Links of a state with itself -/

namespace Links

/-- Every declared variable stands for itself. -/
def self (names : List String) : Links :=
  names.map fun x => .both x x

theorem agree_self (names : List String) : (self names).agree = Eq := by
  induction names with
  | nil => rfl
  | cons x names ih =>
      show (self names).agree.bind x x = Eq
      rw [ih, Matching.bind_eq]

theorem joins_self {α : Type} (E : List (String × α)) : (self (E.map Prod.fst)).Joins E E := by
  induction E with
  | nil => exact .nil
  | cons p E ih => exact .both ih

theorem Joins.eq_of_self {α : Type} {names : List String} {E F : List (String × α)}
    (h : (self names).Joins E F) : E = F := by
  induction names generalizing E F with
  | nil =>
      cases h
      rfl
  | cons x names ih =>
      cases h with
      | both h => rw [ih h]

theorem linked_self (σ : State W) : (self σ.names).Linked σ σ :=
  ⟨joins_self σ.env, rfl, rfl⟩

end Links

/-! ## Results with more variables -/

/-- The same state with more variables in front. -/
structure State.Padded (pad : List (String × W.Value)) (σ τ : State W) : Prop where
  env : τ.env = pad ++ σ.env
  globals : σ.globals = τ.globals
  trace : σ.trace = τ.trace

/-- Results that are both missing, or end alike with more variables on the right side.
At a normal end these are known by name. -/
inductive World.Result.Padded (names : List String) : W.Result → W.Result → Prop where
  | none : Padded names none none
  | some {o : Outcome} {pad : List (String × W.Value)} {σ τ : State W} :
      (o = .normal → pad.map Prod.fst = names) → σ.Padded pad τ →
      Padded names (some (o, σ)) (some (o, τ))

/-- Behind the end of a scope on the left side only, what was declared in the scope is
left over on the right side. -/
theorem Links.Linked.padded_restore {σ ρ τ : State W} {K : Links}
    (h : Links.Linked (K ++ Links.self σ.names) ρ τ) :
    ∃ pad, pad.map Prod.fst = K.map Link.name ∧
      State.Padded pad (ρ.restore σ.env.length) τ := by
  obtain ⟨E₁, E₀, F₁, F₀, hE, hF, h₀, hnames⟩ := h.env.of_append
  obtain ⟨hlen, -⟩ := (Links.linked_self σ).env.length_eq h₀
  refine ⟨F₁, hnames, ?_, h.globals, h.trace⟩
  rw [hF, ← h₀.eq_of_self]
  simp [State.restore, hE, hlen]

theorem State.restore_restore (σ : State W) {i j : Nat} (h : i ≤ j) :
    (σ.restore j).restore i = σ.restore i := by
  simp only [State.restore, List.length_drop, List.drop_drop]
  congr 2
  omega

theorem World.Result.inScope_inScope (r : W.Result) {σ ρ : State W}
    (h : σ.env.length ≤ ρ.env.length) : (r.inScope ρ).inScope σ = r.inScope σ := by
  cases r with
  | none => rfl
  | some r =>
      obtain ⟨o, τ⟩ := r
      simp only [World.Result.inScope, Option.map_some, State.restore_restore τ h]

/-! ## Sequences -/

theorem World.Result.andThen_normal (r : W.Result) :
    r.andThen (fun σ => some (.normal, σ)) = r := by
  cases r with
  | none => rfl
  | some r =>
      obtain ⟨o, σ⟩ := r
      cases o <;> rfl

theorem World.Result.andThen_assoc (r : W.Result) (f g : State W → W.Result) :
    (r.andThen f).andThen g = r.andThen fun σ => (f σ).andThen g := by
  cases r with
  | none => rfl
  | some r =>
      obtain ⟨o, σ⟩ := r
      cases o <;> rfl

theorem Block.exec_append (n : Nat) (b c : Block) (σ : State W) :
    Block.exec n (b ++ c) σ = (Block.exec n b σ).andThen (Block.exec n c) := by
  induction b generalizing σ with
  | nil => rfl
  | cons s b ih =>
      have hrest : Block.exec n (b ++ c) = fun σ => (Block.exec n b σ).andThen (Block.exec n c) :=
        funext ih
      rw [List.cons_append, Block.exec, hrest, Block.exec, World.Result.andThen_assoc]

theorem Block.exec_singleton (n : Nat) (s : Stmt) (σ : State W) :
    Block.exec n [s] σ = s.exec n σ :=
  World.Result.andThen_normal (s.exec n σ)

/-! ## The case that runs -/

/-- An expression without calls has a value that its variables decide. -/
theorem Expr.exists_value {e : Expr} (h : e.callees = []) (read : String → W.Value) :
    ∃ v, ∀ read' t, (∀ x ∈ e.variableNames, read' x = read x) →
      e.value W read' t = some (v, t) := by
  cases e with
  | literal l => exact ⟨W.meaning l, fun _ _ _ => rfl⟩
  | «variable» x =>
      refine ⟨read x, fun read' t hread => ?_⟩
      rw [← hread x (List.mem_singleton_self x)]
      rfl
  | call f args => cases h

theorem World.exists_chosen (v : W.Value) {values : List (Option Literal)}
    (h : none ∈ values) : ∃ k, W.chosen v values = some k ∧ k < values.length := by
  have hlt : ∀ {p : Option Literal → Bool} {k : Nat}, values.findIdx? p = some k →
      k < values.length :=
    fun hk => (List.findIdx?_eq_some_iff_getElem.mp hk).1
  unfold World.chosen
  cases hfirst : values.findIdx? fun l => l.any fun l => W.meaning l = v with
  | some k => exact ⟨k, rfl, hlt hfirst⟩
  | none =>
      have hdefault : (values.findIdx? Option.isNone).isSome = true := by
        rw [List.findIdx?_isSome, List.any_eq_true]
        exact ⟨none, h, rfl⟩
      obtain ⟨k, hk⟩ := Option.isSome_iff_exists.mp hdefault
      exact ⟨k, hk, hlt hk⟩

/-- A switch with a default case and without calls in its scrutinee runs one case, the
same in every state in which its scrutinee reads the same. -/
theorem Stmt.exists_exec_switch {e : Expr} (hcallees : e.callees = []) {cases : List Case}
    (hdefault : none ∈ cases.map Case.value) (n : Nat) (σ : State W) :
    ∃ k, k < cases.length ∧ ∀ (cases' : List Case) (τ : State W),
      cases'.map Case.value = cases.map Case.value →
      (∀ x ∈ e.variableNames, τ.read x = σ.read x) →
      (Stmt.switch e cases').exec n τ = Case.exec n k cases' τ := by
  obtain ⟨v, hv⟩ := Expr.exists_value hcallees σ.read
  obtain ⟨k, hk, hlt⟩ := World.exists_chosen v hdefault
  rw [List.length_map] at hlt
  refine ⟨k, hlt, fun cases' τ hvalues hread => ?_⟩
  simp only [Stmt.exec, hv τ.read τ.trace hread, Option.bind_eq_bind, Option.bind_some, hvalues, hk]
  rfl

/-- The statements of a prefix leave the variables of the scrutinee alone. -/
theorem PrefixContext.MayAll.read_eq {ctx : PrefixContext} {taken : Names} {b : Block}
    (h : ctx.MayAll taken b) {n : Nat} {σ τ : State W}
    (hexec : Block.exec n b σ = some (.normal, τ)) :
    ∀ x ∈ ctx.pinned.variableNames, τ.read x = σ.read x := by
  intro x hx
  refine Block.read_of_exec hexec ?_ ?_
  -- No statement that may move declares a variable of the scrutinee, or assigns one.
  · intro hdeclared
    obtain ⟨s, hs, hxs⟩ := List.mem_flatMap.mp hdeclared
    obtain ⟨-, hnot, -, -⟩ := Pinned.allows_iff.mp (h.mem hs).1
    exact hnot x hxs hx
  · intro hassigns
    obtain ⟨s, hs, hxs⟩ := hassigns.exists_mem
    obtain ⟨-, -, hnot, -⟩ := Pinned.allows_iff.mp (h.mem hs).1
    exact hnot x (Stmt.mem_written.mpr hxs) hx

/-! ## The prefix in front -/

/-- One case of the switch, and the prefix followed by what is left of the case.  The
end of the case comes behind what is left of it. -/
theorem Case.LeftBehind.padded {front : Block} {c c' : Case} (h : c.LeftBehind front c') (n : Nat)
    (σ : State W) :
    World.Result.Padded (Block.declared front).reverse
      ((Block.exec n c.body σ).inScope σ)
      ((Block.exec n front σ).andThen fun τ => (Block.exec n c'.body τ).inScope τ) := by
  obtain ⟨own, rest, hbody, hown, hrest⟩ := h.body
  rw [hbody, Block.exec_append]
  have hhoist := hown.related (n := n) (Links.agree_self σ.names).symm (Links.linked_self σ)
  generalize Block.exec n own σ = r at hhoist ⊢
  generalize Block.exec n front σ = r' at hhoist ⊢
  cases hhoist with
  | none => exact .none
  | @some o L ρ ρ' hL hend hlinked =>
      by_cases ho : o = .normal
      · subst ho
        obtain rfl := hend rfl
        obtain ⟨K, hK, hnames⟩ :=
          Links.exists_declare hown.length_declared (Links.self σ.names)
        have hafter : Matching.after Eq own front =
            (Links.declare (Block.declared own) (Block.declared front) (.self σ.names)).agree := by
          rw [Links.agree_declare, Links.agree_self, Matching.after]
        have hlast := (hrest.related (n := n) hafter hlinked).inScope hlinked
        show World.Result.Padded _ ((Block.exec n rest ρ).inScope σ)
          ((Block.exec n c'.body ρ').inScope ρ')
        -- On the left side one scope ends, in front of the case; on the right side the prefix
        -- runs outside it. Ending the inner scope first makes no difference on the left.
        rw [← World.Result.inScope_inScope _ ((Links.linked_self σ).length_le hL hlinked)]
        generalize (Block.exec n rest ρ).inScope ρ = r at hlast ⊢
        generalize (Block.exec n c'.body ρ').inScope ρ' = r' at hlast ⊢
        cases hlast with
        | none => exact .none
        | some hlinked' =>
            rw [hK] at hlinked'
            obtain ⟨pad, hpadnames, hpad⟩ := hlinked'.padded_restore
            exact .some (fun _ => hpadnames.trans hnames) hpad
      -- The prefix is left early: neither what is left of the case nor the switch runs.
      · rw [World.Result.andThen_left ho, World.Result.andThen_left ho]
        obtain ⟨K, rfl⟩ := hL
        obtain ⟨pad, -, hpad⟩ := hlinked.padded_restore
        exact .some (fun hnormal => absurd hnormal ho) hpad

/-- A switch, and its prefix followed by the switch without the prefix. -/
theorem hoistPrefix_padded {live : Names} {e : Expr} {cases cases' : List Case} {hoisted : Block}
    (h : hoistPrefix Stmt.alphaEq live e cases = .ok (hoisted, cases'))
    (hnodup : ∀ c ∈ cases, ∀ s ∈ c.body, s.declared.Nodup) (hcallees : e.callees = [])
    (hdefault : none ∈ cases.map Case.value) (n : Nat) (σ : State W) :
    World.Result.Padded (Block.declared hoisted).reverse ((Stmt.switch e cases).exec n σ)
      (Block.exec n (hoisted ++ [.switch e cases']) σ) := by
  have hleft := hoistPrefix_leftBehind h hnodup
  obtain ⟨first, others, rest, followers, -, -, -, hmay, -⟩ := hoistPrefix_eq_ok h
  obtain ⟨k, hk, hswitch⟩ := Stmt.exists_exec_switch hcallees hdefault n σ
  have hvalues := Case.Resembles.map_value (hoistPrefix_resembles h)
  have hk' : k < cases'.length := hleft.length_eq ▸ hk
  have hcase := hleft.get hk hk'
  rw [hswitch cases σ rfl fun _ _ => rfl, Case.exec_getElem (List.getElem?_eq_getElem hk)]
  have hright : Block.exec n (hoisted ++ [.switch e cases']) σ =
      (Block.exec n hoisted σ).andThen fun τ => (Block.exec n cases'[k].body τ).inScope τ := by
    rw [Block.exec_append]
    cases hhoist : Block.exec n hoisted σ with
    | none => rfl
    | some r =>
        obtain ⟨o, τ⟩ := r
        by_cases ho : o = .normal
        · subst ho
          -- Behind the prefix the scrutinee reads what it read before, so the same case is
          -- chosen.
          have hread := hmay.read_eq hhoist
          show Block.exec n [.switch e cases'] τ = _
          rw [Block.exec_singleton, hswitch cases' τ hvalues hread,
            Case.exec_getElem (List.getElem?_eq_getElem hk')]
          rfl
        · rw [World.Result.andThen_left ho, World.Result.andThen_left ho]
  rw [hright]
  exact hcase.padded n σ

end SwitchHoist
