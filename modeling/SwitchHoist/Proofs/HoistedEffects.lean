import SwitchHoist.Proofs.CaseMeaning
import SwitchHoist.Proofs.ValidPrograms
import SwitchHoist.Proofs.VisibleFunctions

/-!
# What a prefix does to the scrutinee

The statements in front of a switch do not assign a variable of the scrutinee, and no
function defined inside them does.  They may still call a function that is visible in
front of the switch, and nothing is known of that.  So the scrutinee keeps its variables
exactly if no such function, reached from the prefix through calls, assigns one.
-/

namespace SwitchHoist

/-- A block inside a program, with what is visible at its start, the way to it and the
names used behind it in the same scope. -/
structure Scope where
  context : Context
  path : Path
  body : Block
  live : Names

/-- The `k`th block inside the statement at a path. -/
def Scope.inner (Γ : Context) (path : Path) (k : Nat) (body : Block) (live : Names) : Scope :=
  ⟨Γ.enter (some (k :: path)) body, k :: path, body, live⟩

/-- What is visible behind the statements of a block, numbered from `i`. -/
def Context.behind (path : Path) : Nat → Context → Block → Context
  | _, Γ, [] => Γ
  | i, Γ, s :: rest => behind path (i + 1) (Γ.declare (some (i :: path)) s.declared) rest

/-- The blocks directly inside the statement at a path. -/
def Stmt.scopes (Γ : Context) (path : Path) : Stmt → List Scope
  | .define _ params returns body =>
      [.inner (Γ.declare (some path) (TypedName.names (params ++ returns))) path 0 body []]
  | .branch _ body => [.inner Γ path 0 body []]
  | .switch _ cases => cases.mapIdx fun k c => .inner Γ path k c.body []
  | .loop pre c post body =>
      let first := Scope.inner Γ path 0 pre (loopNames c post body)
      let Δ := Context.behind first.path 0 first.context pre
      [first, .inner Δ path 1 post [], .inner Δ path 2 body []]
  | .block body => [.inner Γ path 0 body []]
  | .expr _ | .assign .. | .declare .. | .break | .continue | .leave => []

/-- The pass on some statements of a scope, of which the first has number `i`, takes the
prefix of a switch in some context.  The blocks inside the switch have been dealt with. -/
inductive Meets : Scope → Nat → Context → Names → Expr → List Case → Prop where
  | here {Γ : Context} {path : Path} {s : Stmt} {rest : Block} {live : Names} {i : Nat}
      {e : Expr} {cases : List Case} :
      s.hoistWithin Stmt.alphaEq = .ok (.switch e cases) →
      Meets ⟨Γ, path, s :: rest, live⟩ i Γ (Block.freeNames rest ++ live) e cases
  | inside {Γ Δ : Context} {path : Path} {s : Stmt} {rest : Block} {live live' : Names} {i : Nat}
      {scope : Scope} {e : Expr} {cases : List Case} :
      scope ∈ s.scopes Γ (i :: path) → Meets scope 0 Δ live' e cases →
      Meets ⟨Γ, path, s :: rest, live⟩ i Δ live' e cases
  | behind {Γ Δ : Context} {path : Path} {s : Stmt} {rest : Block} {live live' : Names} {i : Nat}
      {e : Expr} {cases : List Case} :
      Meets ⟨Γ.declare (some (i :: path)) s.declared, path, rest, live⟩ (i + 1) Δ live' e cases →
      Meets ⟨Γ, path, s :: rest, live⟩ i Δ live' e cases

/-- A whole program as a scope. -/
def Block.scope (p : Block) : Scope :=
  ⟨Context.enter ⟨[], []⟩ (some []) p, [], p, []⟩

/-- Every visible variable has a place in the program. -/
def Context.Placed (Γ : Context) : Prop :=
  ∀ v ∈ Γ.vars, v.2 ≠ none

section Meets

variable {Γ Δ : Context}

theorem Context.Placed.declare (h : Γ.Placed) (path : Path) (names : List String) :
    (Γ.declare (some path) names).Placed := by
  intro v hv
  rcases List.mem_append.mp hv with hv | hv
  · obtain ⟨x, -, rfl⟩ := List.mem_map.mp hv
    exact Option.some_ne_none path
  · exact h v hv

theorem Context.Placed.behind {path : Path} {b : Block} {i : Nat} (h : Γ.Placed) :
    (Context.behind path i Γ b).Placed := by
  induction b generalizing Γ i with
  | nil => exact h
  | cons s rest ih =>
      show (Context.behind path (i + 1) (Γ.declare (some (i :: path)) s.declared) rest).Placed
      exact ih (h.declare _ _)

theorem Context.Placed.resolve_ne (h : Γ.Placed) (x : String) : Γ.resolve x ≠ .inner := by
  unfold Context.resolve
  split
  · exact nofun
  · next hlookup =>
      -- A variable without a place would have to stand among the visible ones.
      have hmem : (x, none) ∈ Γ.vars := by
        obtain ⟨before, after, heq, -⟩ := List.lookup_eq_some_iff.mp hlookup
        rw [heq]
        simp
      exact absurd rfl (h _ hmem)
  · exact nofun

/-- The blocks inside a statement are entered with places for all variables. -/
theorem Context.Placed.scopes (h : Γ.Placed) {path : Path} {s : Stmt} :
    ∀ scope ∈ s.scopes Γ path, scope.context.Placed ∧ scope.body ∈ s.blocks := by
  cases s with
  | define name params returns body =>
      have hown := h.declare path (TypedName.names (params ++ returns))
      exact List.forall_mem_singleton.mpr ⟨hown, List.mem_singleton_self body⟩
  | branch c body => exact List.forall_mem_singleton.mpr ⟨h, List.mem_singleton_self body⟩
  | switch e cases =>
      intro scope hscope
      obtain ⟨k, hk, rfl⟩ := List.mem_mapIdx.mp hscope
      exact ⟨h, List.mem_map_of_mem (List.getElem_mem hk)⟩
  | loop pre c post body =>
      have hafter : (Context.behind (0 :: path) 0 (Γ.enter (some (0 :: path)) pre) pre).Placed :=
        Context.Placed.behind h
      simp only [Stmt.scopes, Stmt.blocks, List.forall_mem_cons]
      refine ⟨⟨h, ?_⟩, ⟨hafter, ?_⟩, ⟨hafter, ?_⟩, fun _ hs => absurd hs List.not_mem_nil⟩
      · exact List.mem_cons_self ..
      · exact List.mem_cons_of_mem _ (List.mem_cons_self ..)
      · exact List.mem_cons_of_mem _ (List.mem_cons_of_mem _ (List.mem_cons_self ..))
  | block body => exact List.forall_mem_singleton.mpr ⟨h, List.mem_singleton_self body⟩
  | _ =>
      intro scope hscope
      cases hscope

theorem Meets.placed {scope : Scope} {i : Nat} {live : Names} {e : Expr} {cases : List Case}
    (h : Meets scope i Δ live e cases) (hplaced : scope.context.Placed) : Δ.Placed := by
  induction h with
  | here => exact hplaced
  | inside hscope _ ih => exact ih (hplaced.scopes _ hscope).1
  | behind _ ih => exact ih (hplaced.declare _ _)

/-- The pass meets no empty switch in a program without one. -/
theorem Meets.hasCases {scope : Scope} {i : Nat} {live : Names} {e : Expr} {cases : List Case}
    (h : Meets scope i Δ live e cases) (hplaced : scope.context.Placed)
    (heach : Block.Each Stmt.HasCases scope.body) : cases ≠ [] := by
  induction h with
  | here hs =>
      rintro rfl
      have hcases := (Stmt.hoists_of_eq_ok _ hs).resembles.hasCases (Block.each_cons.mp heach).1.head
      exact hcases _ rfl
  | inside hscope _ ih =>
      obtain ⟨hinner, hblock⟩ := hplaced.scopes _ hscope
      exact ih hinner ((Block.each_cons.mp heach).1.blocks _ hblock)
  | behind _ ih => exact ih (hplaced.declare _ _) (Block.each_cons.mp heach).2

end Meets

/-- At every switch that the pass meets in a valid program, the prefix does not assign a
variable of the scrutinee itself.  It does through calls exactly if it reaches a function
that is visible in front of the switch and does. -/
theorem hoisted_assigns_iff {p : Block} (hvalid : p.IsValid) {Γ : Context} {live : Names}
    {e : Expr} {cases : List Case} (h : Meets p.scope 0 Γ live e cases) :
    ∃ hoisted cases', hoistPrefix Stmt.alphaEq live e cases = .ok (hoisted, cases') ∧
      ∀ x ∈ e.variableNames,
        Site.assigns (Γ.resolve x) ∉ Block.sites hoisted Γ ∧
        (Site.Reach (Block.sites hoisted Γ) (Γ.resolve x) ↔
          ∃ c, Site.Call (Block.sites hoisted Γ) c ∧ c.Outside Γ ∧
            Site.Reach c.sites (Γ.resolve x)) := by
  have hroot : p.scope.context.Placed := fun _ hv => nomatch hv
  have hplaced := h.placed hroot
  obtain ⟨hoisted, cases', hhoist⟩ :=
    exists_hoistPrefix Stmt.alphaEq_faithful live e (h.hasCases hroot hvalid.hasCases)
  refine ⟨hoisted, cases', hhoist, fun x hx => ?_⟩
  obtain ⟨-, -, -, -, -, -, -, hmay, -⟩ := hoistPrefix_eq_ok hhoist
  -- No statement that may move assigns a variable of the scrutinee itself.
  have hassigns : ∀ s ∈ hoisted, ¬ s.Assigns x := by
    intro s hs hxs
    obtain ⟨-, -, hnot, -⟩ := Pinned.allows_iff.mp (hmay.mem hs).1
    exact hnot x (Stmt.mem_written.mpr hxs) hx
  have hinner := hplaced.resolve_ne x
  have hspares := Block.spares_sites hinner hoisted (.refl Γ) (Or.inr fun h => ?_)
  · exact ⟨fun hmem => hspares _ hmem rfl, Block.reach_iff hinner hassigns⟩
  · obtain ⟨s, hs, hxs⟩ := h.exists_mem
    exact hassigns s hs hxs

/-- Both cases call a function in front of the switch, which assigns the variable of the
scrutinee. -/
def outerCases : List Case :=
  [⟨some ⟨.number, "0", none⟩, [.expr (.call "f" []), .expr (.call "g" [])]⟩,
    ⟨none, [.expr (.call "f" []), .expr (.call "h" [])]⟩]

def outerCall : Block :=
  [.declareUntyped ["x"] (some (.number "0")),
    .define "f" [] [] [.assign ["x"] (.number "1")],
    .switch (.variable "x") outerCases]

/-- What is visible at the switch: the variable, and the function behind it. -/
def outerContext : Context :=
  ⟨[("x", some [0])], [[⟨"f", [], [.assign ["x"] (.number "1")], [("x", some [0])]⟩]]⟩

theorem outerCall_meets : Meets outerCall.scope 0 outerContext [] (.variable "x") outerCases :=
  .behind (.behind (.here rfl))

theorem outerCall_assigns_iff :
    outerCall.IsValid ∧ Meets outerCall.scope 0 outerContext [] (.variable "x") outerCases ∧
    ∃ hoisted cases',
      hoistPrefix Stmt.alphaEq [] (.variable "x") outerCases = .ok (hoisted, cases') ∧
      ∀ x ∈ (Expr.variable "x").variableNames,
        Site.assigns (outerContext.resolve x) ∉ Block.sites hoisted outerContext ∧
        (Site.Reach (Block.sites hoisted outerContext) (outerContext.resolve x) ↔
          ∃ c, Site.Call (Block.sites hoisted outerContext) c ∧ c.Outside outerContext ∧
            Site.Reach c.sites (outerContext.resolve x)) := by
  have hvalid : outerCall.IsValid := by decide +kernel
  exact ⟨hvalid, outerCall_meets, hoisted_assigns_iff hvalid outerCall_meets⟩

/-- The call is put in front of the switch, and it assigns the variable of the
scrutinee. -/
theorem outerCall_assigns_scrutinee :
    outerCall.IsValid ∧ Meets outerCall.scope 0 outerContext [] (.variable "x") outerCases ∧
    (Expr.variable "x").callees = [] ∧
    hoistPrefix Stmt.alphaEq [] (.variable "x") outerCases =
      .ok ([.expr (.call "f" [])],
        [⟨some ⟨.number, "0", none⟩, [.expr (.call "g" [])]⟩, ⟨none, [.expr (.call "h" [])]⟩]) ∧
    Site.Reach (Block.sites [.expr (.call "f" [])] outerContext) (outerContext.resolve "x") := by
  refine ⟨by decide +kernel, outerCall_meets, rfl, rfl, ?_⟩
  refine .calls (List.mem_append_left _ (List.mem_singleton_self _)) (.assigns ?_)
  exact List.mem_append_left _ (List.mem_append_right _ (List.mem_singleton_self _))

end SwitchHoist
