import SwitchHoist.Proofs.OuterScopes
import SwitchHoist.Proofs.PrefixExecution
import SwitchHoist.Proofs.ValidPrograms

/-!
# The pass keeps what a program does

A block and the block behind the pass run alike.  In front of a statement the two states
may differ in variables that prefixes have declared, but no name that is used from there
on means one of these.  At the end of the block they are dropped.
-/

namespace SwitchHoist

variable {W : World}

/-! ## Names that stand for themselves -/

namespace Links

theorem agree_pad (names : List String) (L : Links) {x : String} (hx : x ∉ names)
    (h : L.agree x x) : Links.agree (names.map Link.right ++ L) x x := by
  induction names with
  | nil => exact h
  | cons y names ih =>
      rw [List.mem_cons, not_or] at hx
      show x ≠ y ∧ Links.agree (names.map Link.right ++ L) x x
      exact ⟨hx.1, ih hx.2⟩

theorem Joins.pad {α : Type} {L : Links} {E F : List (String × α)} (h : L.Joins E F)
    (pad : List (String × α)) :
    Links.Joins ((pad.map Prod.fst).map Link.right ++ L) E (pad ++ F) := by
  induction pad with
  | nil => exact h
  | cons p pad ih => exact .right ih

/-- A name that is declared alike on both sides, or stood for itself before. -/
theorem agree_declare_self (names : List String) (L : Links) {x : String}
    (h : x ∈ names ∨ L.agree x x) : (Links.declare names names L).agree x x := by
  induction names generalizing L with
  | nil => exact h.resolve_left (List.not_mem_nil)
  | cons y names ih =>
      show (Links.declare names names (.both y y :: L)).agree x x
      refine ih _ ?_
      rcases h with hx | hx
      · rcases List.mem_cons.mp hx with rfl | hx
        · exact Or.inr (Or.inl ⟨rfl, rfl⟩)
        · exact Or.inl hx
      · by_cases hxy : x = y
        · exact Or.inr (Or.inl ⟨hxy, hxy⟩)
        · exact Or.inr (Or.inr ⟨hxy, hxy, hx⟩)

/-- More variables on the right side get links of their own. -/
theorem Related.pad {L : Links} {names : List String} {r r' r'' : W.Result}
    (h : L.Related (· = L) r r') (hpad : World.Result.Padded names r' r'') :
    L.Related (· = names.map Link.right ++ L) r r'' := by
  cases h with
  | none =>
      cases hpad
      exact .none
  | @some o L' σ τ hL hend hlinked =>
      cases hpad with
      | @some _ pad _ τ' hnames hpadded =>
          refine .some (hL.trans (List.suffix_append ((pad.map Prod.fst).map Link.right) L'))
            (fun ho => ?_) ⟨?_, ?_, ?_⟩
          · rw [hnames ho, hend ho]
          · rw [hpadded.env]
            exact hlinked.env.pad pad
          · rw [hlinked.globals, hpadded.globals]
          · rw [hlinked.trace, hpadded.trace]

/-- Linked to themselves, scopes have the same result on both sides. -/
theorem Related.inScope_eq {P : Links → Prop} {σ : State W} {r r' : W.Result}
    (h : (Links.self σ.names).Related P r r') : r'.inScope σ = r.inScope σ := by
  have hscope := h.inScope (Links.linked_self σ)
  generalize r.inScope σ = r at hscope ⊢
  generalize r'.inScope σ = r' at hscope ⊢
  cases hscope with
  | none => rfl
  | @some o ρ τ hlinked =>
      obtain ⟨henv, hglobals, htrace⟩ := hlinked
      obtain ⟨E, g, t⟩ := ρ
      obtain ⟨E', g', t'⟩ := τ
      obtain rfl := henv.eq_of_self
      obtain rfl : g = g' := hglobals
      obtain rfl : t = t' := htrace
      rfl

end Links

/-! ## Programs whose prefixes can run early -/

/-- What a statement needs for its prefix to run early: no function is defined, and a
switch has a default case and no call in its scrutinee. -/
def Stmt.Plain : Stmt → Prop
  | .define .. => False
  | .switch scrutinee cases => scrutinee.callees = [] ∧ none ∈ cases.map Case.value
  | _ => True

theorem Stmt.Resembles.plain {s t : Stmt} (h : s.Resembles t) (hs : s.Plain) : t.Plain := by
  cases h with
  | switch e hcases => exact ⟨hs.1, Case.Resembles.map_value hcases ▸ hs.2⟩
  | _ => exact hs

theorem Expr.matches_self {M : Matching} {e : Expr} (h : ∀ x ∈ e.variableNames, M x x) :
    e.Matches M e := by
  have hexpr : (Stmt.expr e).Matches M (.expr e) := by
    apply Stmt.matches_self
    intro x hx
    obtain ⟨o, ho, -, rfl⟩ := Block.mem_freeNames.mp hx
    simp only [Block.occurrences, Block.walk, Stmt.walk, List.append_nil, Expr.reads,
      List.mem_map] at ho
    obtain ⟨y, hy, rfl⟩ := ho
    exact h y hy
  cases hexpr with
  | expr he => exact he

/-- The statements of two scopes do the same in linked states where the names that are
used in the first and behind it stand for themselves; and those behind it still do
afterwards. -/
def Block.RunsAlike (W : World) (n : Nat) (live : Names) (b b' : Block) : Prop :=
  ∀ (L : Links) (σ τ : State W), L.Linked σ τ → (∀ x ∈ Block.freeNames b ++ live, L.agree x x) →
    L.Related (fun L' => ∀ x ∈ live, L'.agree x x) (Block.exec n b σ) (Block.exec n b' τ)

section Pass

variable {n : Nat} {L : Links} {σ τ : State W}

/-- Blocks whose statements run alike are the same as scopes. -/
theorem Block.RunsAlike.inScope_eq {live : Names} {b b' : Block}
    (h : Block.RunsAlike W n live b b') (σ : State W) :
    (Block.exec n b' σ).inScope σ = (Block.exec n b σ).inScope σ := by
  refine Links.Related.inScope_eq (h _ σ σ (Links.linked_self σ) fun x _ => ?_)
  rw [Links.agree_self]

/-- Two scopes that are the same in every state are alike in linked states. -/
theorem Links.Linked.alike_scope (h : L.Linked σ τ) {b b' : Block}
    (hscope : ∀ σ : State W, (Block.exec n b' σ).inScope σ = (Block.exec n b σ).inScope σ)
    (hb : ∀ x ∈ Block.freeNames b, L.agree x x) :
    L.Alike ((Block.exec n b σ).inScope σ) ((Block.exec n b' τ).inScope τ) := by
  rw [hscope τ]
  exact ((Block.matches_self hb).related rfl h).inScope h

/-- A loop with other blocks that run alike. -/
theorem Stmt.exec_loop_eq {pre pre' post post' body body' : Block} {c : Expr}
    (hpre : Block.RunsAlike W n (loopNames c post body) pre pre')
    (hpost : Block.RunsAlike W n [] post post') (hbody : Block.RunsAlike W n [] body body')
    (σ : State W) :
    (Stmt.loop pre' c post' body').exec n σ = (Stmt.loop pre c post body).exec n σ := by
  have hloop : (Links.self σ.names).Related (fun _ => True)
      ((Block.exec n pre σ).andThen (World.rounds c (fun ρ => (Block.exec n post ρ).inScope ρ)
        (fun ρ => (Block.exec n body ρ).inScope ρ) n))
      ((Block.exec n pre' σ).andThen (World.rounds c (fun ρ => (Block.exec n post' ρ).inScope ρ)
        (fun ρ => (Block.exec n body' ρ).inScope ρ) n)) := by
    -- What the rounds use are the live names of the first block.
    refine (hpre _ σ σ (Links.linked_self σ) fun x _ => by rw [Links.agree_self]).andThen ?_
    intro L ρ τ _ hlive hlinked
    simp only [loopNames, List.forall_mem_append] at hlive
    obtain ⟨⟨hc, hfreePost⟩, hfreeBody⟩ := hlive
    refine Links.Related.mono (hlinked.rounds (Expr.matches_self hc) ?_ ?_ n) fun _ _ _ => trivial
    · exact fun _ _ h => h.alike_scope hpost.inScope_eq hfreePost
    · exact fun _ _ h => h.alike_scope hbody.inScope_eq hfreeBody
  exact hloop.inScope_eq

/-- What is put in the place of a statement does what the statement does, and leaves
every name that is used behind it for itself. -/
theorem Stmt.related_hoistOut {s s' : Stmt} {rest front : Block} {live : Names}
    (hfront : s'.hoistOut Stmt.alphaEq rest live = .ok front)
    (hexec : ∀ τ : State W, s'.exec n τ = s.exec n τ) (hdeclared : s.declared = s'.declared)
    (hplain : s'.Plain) (hnodup : s'.Each fun t => t.declared.Nodup) (hlinked : L.Linked σ τ)
    (hagree : ∀ x ∈ Block.freeNames (s :: rest) ++ live, L.agree x x) :
    L.Related (fun L' => ∀ x ∈ Block.freeNames rest ++ live, L'.agree x x) (s.exec n σ)
      (Block.exec n front τ) := by
  have hmatches : s.Matches L.agree s := by
    apply Stmt.matches_self
    intro x hx
    exact hagree x (List.mem_append_left _ (Block.mem_freeNames_cons.mpr (Or.inl hx)))
  have hself := hmatches.related (n := n) rfl hlinked
  have hkept : ∀ x ∈ Block.freeNames rest ++ live, x ∈ s.declared ∨ L.agree x x := by
    intro x hx
    by_cases hxs : x ∈ s.declared
    · exact Or.inl hxs
    · right
      rcases List.mem_append.mp hx with hx | hx
      · exact hagree x (List.mem_append_left _ (Block.mem_freeNames_cons.mpr (Or.inr ⟨hxs, hx⟩)))
      · exact hagree x (List.mem_append_right _ hx)
  rcases Stmt.hoistOut_eq_ok hfront with ⟨-, rfl⟩ | ⟨e, cases, hoisted, cases', rfl, hhoist, rfl⟩
  · rw [Block.exec_singleton, hexec]
    refine hself.mono fun L' _ hL' x hx => ?_
    rw [hL']
    exact Links.agree_declare_self _ L (hkept x hx)
  -- The prefix leaves its variables on the right side only. None of them is used behind the
  -- switch, so the names used there still stand for themselves.
  · rw [Stmt.each_switch, Case.each_iff] at hnodup
    have hpadded := hoistPrefix_padded hhoist (fun c hc t ht => ((hnodup.2 c hc).mem ht).head)
      hplain.1 hplain.2 n τ
    rw [hexec] at hpadded
    have hnil : s.declared = [] := hdeclared
    rw [hnil, Links.declare_nil] at hself
    refine (hself.pad hpadded).mono fun L' _ hL' x hx => ?_
    rw [hL']
    obtain ⟨-, -, -, -, -, -, -, hmay, -⟩ := hoistPrefix_eq_ok hhoist
    refine Links.agree_pad _ L (fun hmem => ?_) ((hkept x hx).resolve_left (by simp [hnil]))
    obtain ⟨t, ht, hxt⟩ := List.mem_flatMap.mp (List.mem_reverse.mp hmem)
    exact (hmay.mem ht).2 x hxt hx

mutual

/-- Dealing with the blocks of a statement does not change what it does. -/
theorem Stmt.Hoists.exec_eq : {s s' : Stmt} → s.Hoists Stmt.alphaEq s' → s.Each Stmt.Plain →
    s.Each (fun t => t.declared.Nodup) → ∀ σ : State W, s'.exec n σ = s.exec n σ
  | _, _, .define .., hplain, _, _ => hplain.head.elim
  | _, _, .branch c hbody, hplain, hnodup, σ => by
      rw [Stmt.each_branch] at hplain hnodup
      have hbody := hbody.runsAlike hplain.2 hnodup.2
      simp only [Stmt.exec, hbody.inScope_eq]
  | _, _, .switch e hcases, hplain, hnodup, σ => by
      rw [Stmt.each_switch] at hplain hnodup
      have hexec := hcases.exec_eq hplain.2 hnodup.2
      simp only [Stmt.exec, Case.Resembles.map_value hcases.resembles, hexec]
  | _, _, .loop c hpre hpost hbody, hplain, hnodup, σ => by
      rw [Stmt.each_loop] at hplain hnodup
      obtain ⟨-, hplainPre, hplainPost, hplainBody⟩ := hplain
      obtain ⟨-, hnodupPre, hnodupPost, hnodupBody⟩ := hnodup
      exact Stmt.exec_loop_eq (hpre.runsAlike hplainPre hnodupPre)
        (hpost.runsAlike hplainPost hnodupPost) (hbody.runsAlike hplainBody hnodupBody) σ
  | .block body, .block body', .block hbody, hplain, hnodup, σ => by
      rw [Stmt.each_block] at hplain hnodup
      have hbody := hbody.runsAlike hplain.2 hnodup.2
      show (Block.exec n body' σ).inScope σ = (Block.exec n body σ).inScope σ
      exact hbody.inScope_eq σ
  | _, _, .same _, _, _, _ => rfl

theorem Block.Hoists.runsAlike : {live : Names} → {b b' : List Stmt} →
    Block.Hoists Stmt.alphaEq live b b' → Block.Each Stmt.Plain b →
    Block.Each (fun t => t.declared.Nodup) b → Block.RunsAlike W n live b b'
  | _, _, _, .nil, _, _ => by
      intro L σ τ hlinked hagree
      exact .normal hlinked fun x hx => hagree x (List.mem_append_right _ hx)
  | _, _, _, .cons hs hfront hrest, hplain, hnodup => by
      rw [Block.each_cons] at hplain hnodup
      have hexec := hs.exec_eq hplain.1 hnodup.1
      have hnodup' := hs.each Stmt.stable_nodup hnodup.1
      have halike := hrest.runsAlike hplain.2 hnodup.2
      intro L σ τ hlinked hagree
      rw [Block.exec_append]
      -- First the statement against what stands in its place, then the rest behind both.
      have hfirst := Stmt.related_hoistOut hfront hexec hs.resembles.declared_eq
        (hs.resembles.plain hplain.1.head) hnodup' hlinked hagree
      exact hfirst.andThen fun L' σ' τ' _ hagree' hlinked' => halike L' σ' τ' hlinked' hagree'

theorem Case.Hoists.exec_eq : {cases cases' : List Case} → Case.Hoists Stmt.alphaEq cases cases' →
    Case.Each Stmt.Plain cases → Case.Each (fun t => t.declared.Nodup) cases →
    ∀ (k : Nat) (σ : State W), Case.exec n k cases' σ = Case.exec n k cases σ
  | _, _, .nil, _, _, _, _ => rfl
  | _, _, .cons _ hbody hrest, hplain, hnodup, k, σ => by
      rw [Case.each_cons] at hplain hnodup
      cases k with
      | zero =>
          show (Block.exec n _ σ).inScope σ = (Block.exec n _ σ).inScope σ
          exact (hbody.runsAlike hplain.1 hnodup.1).inScope_eq σ
      | succ k =>
          show Case.exec n k _ σ = Case.exec n k _ σ
          exact hrest.exec_eq hplain.2 hnodup.2 k σ

end

end Pass

/-- Hoisting keeps what a program does in every world: the calls it makes, how it ends
and what it leaves in the global variables. -/
theorem Block.hoist_runs_iff (b : Block) (hvalid : b.IsValid) (hplain : Block.Each Stmt.Plain b) :
    ∃ b', b.hoist Stmt.alphaEq = .ok b' ∧
      ∀ (W : World) (globals : String → W.Value) (trace : W.Trace) (o : Outcome)
        (globals' : String → W.Value) (trace' : W.Trace),
        b'.Runs W globals trace o globals' trace' ↔ b.Runs W globals trace o globals' trace' := by
  obtain ⟨b', hb'⟩ := Block.exists_hoistBefore Stmt.alphaEq_faithful b [] hvalid.hasCases
  refine ⟨b', hb', fun W globals trace o globals' trace' => ?_⟩
  have hoists := Block.hoists_of_eq_ok b hb'
  have hscope : ∀ (n : Nat) (σ : State W),
      (Block.exec n b' σ).inScope σ = (Block.exec n b σ).inScope σ :=
    fun n => (hoists.runsAlike hplain hvalid.nodup).inScope_eq
  simp only [Block.Runs, runs_scope_iff, hscope]

/-- A loop that declares a variable in each case of a switch in its first block, and
leaves early from a case that uses another name for a variable than its neighbour. -/
def earlyExit : Block :=
  [.loop
    [.switch (.variable "x") [
      ⟨some ⟨.number, "0", none⟩, [.declareUntyped ["a"] (some (.call "f" []))]⟩,
      ⟨none, [.declareUntyped ["b"] (some (.call "f" [])), .assign ["y"] (.variable "b")]⟩]]
    (.variable "y")
    [.assign ["y"] (.call "g" [.variable "y"])]
    [.switch (.variable "y") [
      ⟨some ⟨.number, "1", none⟩,
        [.declareUntyped ["c"] (some (.call "g" [.variable "x"])), .expr (.call "h" [.variable "c"]),
          .break]⟩,
      ⟨none,
        [.declareUntyped ["x"] (some (.call "g" [.variable "x"])),
          .expr (.call "h" [.variable "x"])]⟩]]]

theorem earlyExit_hoist_runs_iff :
    earlyExit.IsValid ∧ Block.Each Stmt.Plain earlyExit ∧
    ∃ b', earlyExit.hoist Stmt.alphaEq = .ok b' ∧
      ∀ (W : World) (globals : String → W.Value) (trace : W.Trace) (o : Outcome)
        (globals' : String → W.Value) (trace' : W.Trace),
        b'.Runs W globals trace o globals' trace' ↔
          earlyExit.Runs W globals trace o globals' trace' := by
  have hvalid : earlyExit.IsValid := by decide +kernel
  have hplain : Block.Each Stmt.Plain earlyExit := by
    simp [Block.Each, earlyExit, Block.subtrees, Stmt.subtree, Case.subtrees, Stmt.Plain,
      Stmt.declareUntyped, Expr.callees]
  exact ⟨hvalid, hplain, Block.hoist_runs_iff earlyExit hvalid hplain⟩

end SwitchHoist
