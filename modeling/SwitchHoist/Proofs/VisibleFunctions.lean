import SwitchHoist.Proofs.Assignments

/-!
# Functions that a call can reach

A function is visible in the whole block that defines it, and its body may assign the
variables in front of its definition.  So what a statement may assign is not only what
it assigns itself: a call leads to the visible function of that name, and from there to
what its body assigns and calls.

A name is told apart by the place of its declaration.  Variables declared on the way
through a statement or a called function have no place; nothing is asked about them.
-/

namespace SwitchHoist

/-- A way into a program: the number of a statement in its block, of the block in the
statement around it, and so on outwards. -/
abbrev Path := List Nat

/-- The variable that a name means somewhere in a program. -/
inductive Variable where
  | global (name : String)
  | declared (name : String) (place : Path)
  /-- A variable declared on the way. -/
  | inner
  deriving DecidableEq, Repr

/-- The variables that are visible somewhere, innermost first. -/
abbrev Visible := List (String × Option Path)

/-- The variables behind a declaration. -/
def Visible.declare (place : Option Path) (names : List String) (vars : Visible) : Visible :=
  names.map (fun x => (x, place)) ++ vars

/-- A function with the variables visible at its definition. -/
structure Definition where
  name : String
  /-- The parameters and returns. -/
  own : List String
  body : Block
  vars : Visible

/-- The definitions of a block, behind the first `i` statements of it. -/
def Definition.ofBlock (place : Option Path) : Nat → Visible → Block → List Definition
  | _, _, [] => []
  | i, vars, s :: rest =>
      let others := ofBlock place (i + 1) (vars.declare (place.map (i :: ·)) s.declared) rest
      match s with
      | .define name params returns body =>
          ⟨name, TypedName.names (params ++ returns), body, vars⟩ :: others
      | _ => others

/-- The variables and the functions that are visible somewhere, the functions by the
blocks that define them, innermost first. -/
structure Context where
  vars : Visible
  functions : List (List Definition)

/-- A function that a name means, with the functions visible in its body. -/
structure Callee where
  definition : Definition
  functions : List (List Definition)

/-- The innermost visible function of a name. -/
def Callee.find? (name : String) : List (List Definition) → Option Callee
  | [] => none
  | frame :: outer =>
      match frame.find? fun d => d.name == name with
      | some d => some ⟨d, frame :: outer⟩
      | none => find? name outer

namespace Context

def resolve (Γ : Context) (x : String) : Variable :=
  match List.lookup x Γ.vars with
  | none => .global x
  | some none => .inner
  | some (some place) => .declared x place

/-- At the start of a block. -/
def enter (Γ : Context) (place : Option Path) (b : Block) : Context :=
  ⟨Γ.vars, Definition.ofBlock place 0 Γ.vars b :: Γ.functions⟩

/-- Behind a declaration. -/
def declare (Γ : Context) (place : Option Path) (names : List String) : Context :=
  ⟨Γ.vars.declare place names, Γ.functions⟩

end Context

/-- In front of the body of a function. -/
def Callee.context (c : Callee) : Context :=
  ⟨c.definition.vars.declare none c.definition.own, c.functions⟩

/-- What a statement does at some place inside it: it assigns a variable or calls a
function of the program. -/
inductive Site where
  | assigns (v : Variable)
  | calls (c : Callee)

/-- The calls in an expression. -/
def Expr.sites (Γ : Context) (e : Expr) : List Site :=
  (e.callees.filterMap fun f => Callee.find? f Γ.functions).map .calls

mutual

/-- What a statement does itself.  The body of a definition runs only when it is called. -/
def Stmt.sites : Stmt → Context → List Site
  | .expr e, Γ => e.sites Γ
  | .assign targets e, Γ => e.sites Γ ++ targets.map fun x => .assigns (Γ.resolve x)
  | .declare _ e, Γ => (e.map (Expr.sites Γ)).getD []
  | .define .., _ => []
  | .branch c body, Γ => c.sites Γ ++ Block.sites body (Γ.enter none body)
  | .switch e cases, Γ => e.sites Γ ++ Case.sites cases Γ
  | .loop pre c post body, Γ =>
      let Δ := (Γ.enter none pre).declare none (Block.declared pre)
      Block.sites pre (Γ.enter none pre) ++ c.sites Δ ++ Block.sites post (Δ.enter none post)
        ++ Block.sites body (Δ.enter none body)
  | .break, _ => []
  | .continue, _ => []
  | .leave, _ => []
  | .block body, Γ => Block.sites body (Γ.enter none body)

/-- What the statements of a block do, from somewhere inside the block. -/
def Block.sites : List Stmt → Context → List Site
  | [], _ => []
  | s :: rest, Γ => s.sites Γ ++ Block.sites rest (Γ.declare none s.declared)

/-- What some cases do. -/
def Case.sites : List Case → Context → List Site
  | [], _ => []
  | ⟨_, body⟩ :: rest, Γ => Block.sites body (Γ.enter none body) ++ Case.sites rest Γ

end

/-- What the body of a function does. -/
def Callee.sites (c : Callee) : List Site :=
  Block.sites c.definition.body (c.context.enter none c.definition.body)

/-- A variable is assigned, directly or in the body of a function that is called. -/
inductive Site.Reach : List Site → Variable → Prop where
  | assigns {sites : List Site} {v : Variable} : .assigns v ∈ sites → Reach sites v
  | calls {sites : List Site} {c : Callee} {v : Variable} :
      .calls c ∈ sites → Reach c.sites v → Reach sites v

/-- A function is called, directly or in the body of a function that is called. -/
inductive Site.Call : List Site → Callee → Prop where
  | here {sites : List Site} {c : Callee} : .calls c ∈ sites → Call sites c
  | through {sites : List Site} {c d : Callee} :
      .calls c ∈ sites → Call c.sites d → Call sites d

theorem Site.Call.reach {sites : List Site} {c : Callee} {v : Variable} (h : Call sites c)
    (hv : Reach c.sites v) : Reach sites v := by
  induction h with
  | here hc => exact .calls hc hv
  | through hc _ ih => exact .calls hc (ih hv)

/-- A function of one of the blocks that are open in a context. -/
def Callee.Outside (Γ : Context) (c : Callee) : Prop :=
  c.functions <:+ Γ.functions

/-! ## Statements that leave an outer variable alone -/

theorem Visible.lookup_declare_none {names : List String} {vars : Visible} {x : String} :
    List.lookup x (vars.declare none names) =
      if x ∈ names then some none else List.lookup x vars := by
  induction names with
  | nil => rfl
  | cons y names ih =>
      show List.lookup x ((y, none) :: vars.declare none names) = _
      rw [List.lookup_cons, ih]
      grind

theorem Visible.declare_declare (vars : Visible) (names names' : List String) :
    Visible.declare none names' (vars.declare none names) = vars.declare none (names' ++ names) := by
  simp [Visible.declare]

namespace Context

/-- Behind declarations on the way, a name means what it meant, or one of them. -/
theorem resolve_of_vars_eq {Γ Δ : Context} {names : List String}
    (hvars : Δ.vars = Γ.vars.declare none names) (x : String) :
    Δ.resolve x = if x ∈ names then .inner else Γ.resolve x := by
  rw [resolve, hvars, Visible.lookup_declare_none]
  by_cases hx : x ∈ names
  · rw [if_pos hx, if_pos hx]
  · rw [if_neg hx, if_neg hx, resolve]

/-- A variable has one name. -/
theorem resolve_inj {Γ : Context} {x y : String} (hx : Γ.resolve x ≠ .inner)
    (h : Γ.resolve y = Γ.resolve x) : y = x := by
  unfold resolve at h hx
  split at h
  · split at h
    · exact Variable.global.inj h
    · cases h
    · cases h
  · split at h
    · cases h
    · next hlookup => simp [hlookup] at hx
    · cases h
  · split at h
    · cases h
    · cases h
    · exact (Variable.declared.inj h).1

end Context

/-- The body of a definition does not assign the outer variable `x`, which is visible
among `vars` outside: if it assigns that name, the name is hidden by then. -/
def Definition.Spares (vars : Visible) (x : String) (d : Definition) : Prop :=
  ∃ names, d.vars = vars.declare none names ∧ (x ∈ names ∨ x ∈ d.own ∨ ¬ Block.Assigns x d.body)

/-- Functions that were visible in a context, and more that spare a variable. -/
def Context.Spares (Γ : Context) (x : String) (functions : List (List Definition)) : Prop :=
  ∃ frames, functions = frames ++ Γ.functions ∧
    ∀ frame ∈ frames, ∀ d ∈ frame, d.Spares Γ.vars x

/-- A context inside statements: there are more variables, declared on the way, and more
functions, which spare a variable. -/
structure Context.Within (Γ : Context) (x : String) (names : List String) (Δ : Context) :
    Prop where
  vars : Δ.vars = Γ.vars.declare none names
  functions : Γ.Spares x Δ.functions

/-- A site that does not assign a variable, and calls no function that assigns it but
functions visible outside. -/
def Site.Spares (Γ : Context) (x : String) : Site → Prop
  | .assigns v => v ≠ Γ.resolve x
  | .calls c => c.Outside Γ ∨ c.definition.Spares Γ.vars x ∧ Γ.Spares x c.functions

section Spares

variable {Γ Δ : Context} {x : String} {names : List String}

/-- Behind new names, one of them hides the variable or the rest may not assign it. -/
theorem hidden_or {new : List String} {P Q : Prop} (hx : x ∈ names ∨ ¬ P)
    (hPQ : x ∉ new → Q → P) : x ∈ new ++ names ∨ ¬ Q := by
  by_cases hmem : x ∈ new ++ names
  · exact Or.inl hmem
  · rw [List.mem_append, not_or] at hmem
    exact Or.inr fun hq => hx.elim hmem.2 fun hp => hp (hPQ hmem.1 hq)

theorem Context.Within.refl (Γ : Context) : Γ.Within x [] Γ :=
  ⟨rfl, [], rfl, fun _ hframe => nomatch hframe⟩

theorem Context.Within.declare (h : Γ.Within x names Δ) (new : List String) :
    Γ.Within x (new ++ names) (Δ.declare none new) := by
  refine ⟨?_, h.functions⟩
  rw [Context.declare, h.vars, Visible.declare_declare]

/-- The definitions of a block spare what the block does not assign. -/
theorem Definition.spares_ofBlock {vars vars' : Visible} {b : Block} {i : Nat}
    (hvars : vars' = vars.declare none names) (hx : x ∈ names ∨ ¬ Block.Assigns x b) :
    ∀ d ∈ Definition.ofBlock none i vars' b, d.Spares vars x := by
  induction b generalizing vars' names i with
  | nil => exact fun _ hd => nomatch hd
  | cons s rest ih =>
      have hx' : x ∈ s.declared ++ names ∨ ¬ Block.Assigns x rest :=
        hidden_or hx fun hnew hrest => Or.inr ⟨hnew, hrest⟩
      have hvars' : vars'.declare none s.declared = vars.declare none (s.declared ++ names) := by
        rw [hvars, Visible.declare_declare]
      have hothers := ih (i := i + 1) hvars' hx'
      cases s with
      | define name params returns body =>
          intro d hd
          rcases List.mem_cons.mp hd with rfl | hd
          -- The block assigns the variable if the body of the definition does.
          · refine ⟨names, hvars, ?_⟩
            rcases hx with hx | hx
            · exact Or.inl hx
            · right
              by_contra hnot
              rw [not_or, not_not] at hnot
              exact hx (Or.inl hnot)
          · exact hothers d hd
      | _ => exact hothers

theorem Context.Within.enter (h : Γ.Within x names Δ) {b : Block}
    (hx : x ∈ names ∨ ¬ Block.Assigns x b) : Γ.Within x names (Δ.enter none b) := by
  obtain ⟨frames, hframes, hspares⟩ := h.functions
  refine ⟨h.vars, Definition.ofBlock none 0 Δ.vars b :: frames, ?_, ?_⟩
  · rw [Context.enter, hframes, List.cons_append]
  · rw [List.forall_mem_cons]
    exact ⟨Definition.spares_ofBlock h.vars hx, hspares⟩

theorem Callee.find?_suffix {f : String} {functions : List (List Definition)} {c : Callee}
    (hc : Callee.find? f functions = some c) : c.functions <:+ functions := by
  induction functions with
  | nil => cases hc
  | cons frame outer ih =>
      rw [Callee.find?] at hc
      split at hc
      · cases hc
        exact List.suffix_rfl
      · exact (ih hc).trans (List.suffix_cons frame outer)

/-- A visible function is one from outside, or spares the variable. -/
theorem Context.Within.spares_find? (h : Γ.Within x names Δ) {f : String} {c : Callee}
    (hc : Callee.find? f Δ.functions = some c) : Site.Spares Γ x (.calls c) := by
  obtain ⟨frames, hframes, hspares⟩ := h.functions
  rw [hframes] at hc
  clear hframes
  induction frames with
  | nil => exact Or.inl (Callee.find?_suffix hc)
  | cons frame frames ih =>
      rw [List.cons_append, Callee.find?] at hc
      -- It is defined in one of the blocks opened on the way, or visible from outside them.
      split at hc
      · next d hd =>
          cases hc
          have hmem := List.mem_of_find?_eq_some hd
          exact Or.inr ⟨hspares frame (List.mem_cons_self ..) d hmem,
            frame :: frames, rfl, hspares⟩
      · exact ih hc fun frame' hframe => hspares frame' (List.mem_cons_of_mem _ hframe)

theorem Context.Within.spares_sites (h : Γ.Within x names Δ) (e : Expr) :
    ∀ site ∈ e.sites Δ, site.Spares Γ x := by
  intro site hsite
  obtain ⟨c, hc, rfl⟩ := List.mem_map.mp hsite
  obtain ⟨f, -, hf⟩ := List.mem_filterMap.mp hc
  exact h.spares_find? hf

mutual

/-- Inside a statement that does not assign an outer variable, every site spares it. -/
theorem Stmt.spares_sites (hinner : Γ.resolve x ≠ .inner) : (s : Stmt) → {names : List String} →
    {Δ : Context} → Γ.Within x names Δ → x ∈ names ∨ ¬ s.Assigns x →
    ∀ site ∈ s.sites Δ, site.Spares Γ x
  | .expr e, _, _, h, _ => h.spares_sites e
  | .assign targets e, _, Δ, h, hx => by
      simp only [Stmt.sites, List.forall_mem_append]
      refine ⟨h.spares_sites e, fun site hsite => ?_⟩
      obtain ⟨y, hy, rfl⟩ := List.mem_map.mp hsite
      intro heq
      -- A target with the place of the variable is the variable, and no name on the way hides it.
      rw [Context.resolve_of_vars_eq h.vars] at heq
      split at heq
      · exact hinner heq.symm
      · next hyn =>
          obtain rfl := Context.resolve_inj hinner heq
          exact hx.elim hyn fun hnot => hnot hy
  | .declare _ e, _, _, h, _ => by
      cases e with
      | none => exact fun _ hsite => nomatch hsite
      | some e => exact h.spares_sites e
  | .define .., _, _, _, _ => fun _ hsite => nomatch hsite
  | .branch c body, _, _, h, hx => by
      simp only [Stmt.sites, List.forall_mem_append]
      exact ⟨h.spares_sites c, Block.spares_sites hinner body (h.enter hx) hx⟩
  | .switch e cases, _, _, h, hx => by
      simp only [Stmt.sites, List.forall_mem_append]
      exact ⟨h.spares_sites e, Case.spares_sites hinner cases h hx⟩
  | .loop pre c post body, names, _, h, hx => by
      have hpre : x ∈ names ∨ ¬ Block.Assigns x pre := hx.imp_right fun hnot h => hnot (Or.inl h)
      have hafter := (h.enter hpre).declare (Block.declared pre)
      have hpost : x ∈ Block.declared pre ++ names ∨ ¬ Block.Assigns x post :=
        hidden_or hx fun hnew h => Or.inr ⟨hnew, Or.inl h⟩
      have hbody : x ∈ Block.declared pre ++ names ∨ ¬ Block.Assigns x body :=
        hidden_or hx fun hnew h => Or.inr ⟨hnew, Or.inr h⟩
      simp only [Stmt.sites, List.forall_mem_append]
      exact ⟨⟨⟨Block.spares_sites hinner pre (h.enter hpre) hpre, hafter.spares_sites c⟩,
        Block.spares_sites hinner post (hafter.enter hpost) hpost⟩,
        Block.spares_sites hinner body (hafter.enter hbody) hbody⟩
  | .break, _, _, _, _ => fun _ hsite => nomatch hsite
  | .continue, _, _, _, _ => fun _ hsite => nomatch hsite
  | .leave, _, _, _, _ => fun _ hsite => nomatch hsite
  | .block body, _, _, h, hx => Block.spares_sites hinner body (h.enter hx) hx

theorem Block.spares_sites (hinner : Γ.resolve x ≠ .inner) : (b : List Stmt) →
    {names : List String} → {Δ : Context} → Γ.Within x names Δ → x ∈ names ∨ ¬ Block.Assigns x b →
    ∀ site ∈ Block.sites b Δ, site.Spares Γ x
  | [], _, _, _, _ => fun _ hsite => nomatch hsite
  | s :: rest, names, _, h, hx => by
      have hrest : x ∈ s.declared ++ names ∨ ¬ Block.Assigns x rest :=
        hidden_or hx fun hnew h => Or.inr ⟨hnew, h⟩
      simp only [Block.sites, List.forall_mem_append]
      exact ⟨Stmt.spares_sites hinner s h (hx.imp_right fun hnot h => hnot (Or.inl h)),
        Block.spares_sites hinner rest (h.declare s.declared) hrest⟩

theorem Case.spares_sites (hinner : Γ.resolve x ≠ .inner) : (cases : List Case) →
    {names : List String} → {Δ : Context} → Γ.Within x names Δ →
    x ∈ names ∨ ¬ Case.Assigns x cases → ∀ site ∈ Case.sites cases Δ, site.Spares Γ x
  | [], _, _, _, _ => fun _ hsite => nomatch hsite
  | ⟨_, body⟩ :: rest, _, _, h, hx => by
      have hbody := hx.imp_right fun hnot (h : Block.Assigns x body) => hnot (Or.inl h)
      simp only [Case.sites, List.forall_mem_append]
      exact ⟨Block.spares_sites hinner body (h.enter hbody) hbody,
        Case.spares_sites hinner rest h (hx.imp_right fun hnot h => hnot (Or.inr h))⟩

end

/-- A function that spares a variable, with functions that do, has no other sites. -/
theorem Callee.spares_sites (hinner : Γ.resolve x ≠ .inner) {c : Callee}
    (hc : c.definition.Spares Γ.vars x) (hfunctions : Γ.Spares x c.functions) :
    ∀ site ∈ c.sites, site.Spares Γ x := by
  obtain ⟨names, hvars, hx⟩ := hc
  have hwithin : Γ.Within x (c.definition.own ++ names) c.context := by
    refine ⟨?_, hfunctions⟩
    rw [Callee.context, hvars, Visible.declare_declare]
  have hx' : x ∈ c.definition.own ++ names ∨ ¬ Block.Assigns x c.definition.body := by
    rw [List.mem_append]
    tauto
  exact Block.spares_sites hinner c.definition.body (hwithin.enter hx') hx'

/-- What spares a variable reaches it only through a function from outside. -/
theorem Site.Reach.exists_outside (hinner : Γ.resolve x ≠ .inner) {sites : List Site}
    (h : Site.Reach sites (Γ.resolve x)) (hsites : ∀ site ∈ sites, site.Spares Γ x) :
    ∃ c, Site.Call sites c ∧ c.Outside Γ ∧ Site.Reach c.sites (Γ.resolve x) := by
  generalize hv : Γ.resolve x = v at h
  induction h with
  | assigns hmem => exact absurd hv.symm (hsites _ hmem)
  | @calls sites c v hmem hreach ih =>
      -- The first function from outside on the way to the assignment is the one to give.
      rcases hsites _ hmem with houtside | ⟨hc, hfunctions⟩
      · exact ⟨c, .here hmem, houtside, hreach⟩
      · obtain ⟨d, hcall, houtside, hd⟩ := ih (Callee.spares_sites hinner hc hfunctions) hv
        exact ⟨d, .through hmem hcall, houtside, hd⟩

/-- Statements that do not assign a variable themselves reach it exactly if they call a
function that is visible in front of them and does. -/
theorem Block.reach_iff (hinner : Γ.resolve x ≠ .inner) {b : Block}
    (hx : ∀ s ∈ b, ¬ s.Assigns x) :
    Site.Reach (Block.sites b Γ) (Γ.resolve x) ↔
      ∃ c, Site.Call (Block.sites b Γ) c ∧ c.Outside Γ ∧ Site.Reach c.sites (Γ.resolve x) := by
  constructor
  · intro h
    refine h.exists_outside hinner (Block.spares_sites hinner b (.refl Γ) (Or.inr fun hassigns => ?_))
    obtain ⟨s, hs, hxs⟩ := hassigns.exists_mem
    exact hx s hs hxs
  · rintro ⟨c, hcall, -, hreach⟩
    exact hcall.reach hreach

end Spares

end SwitchHoist
