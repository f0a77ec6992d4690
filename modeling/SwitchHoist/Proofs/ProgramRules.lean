import SwitchHoist.Proofs.ValidityKept

/-!
# The valid programs are those that keep the rules

The rules for programs are said here once more, without the walks that look for violations.
Most of them are about one block at a time, at any depth.  Where `break`, `continue` and `leave`
may stand depends on the regions that a block lies in: the bodies of functions, and the blocks of
loops.  `Block.report_isEmpty_iff_keepsRules` says that a program without violations is one that
keeps these rules, and no other.
-/

namespace SwitchHoist

/-! ## Blocks at any depth -/

/-- A part of a program in which leaving a loop or a function may mean something else than around
it. -/
inductive Region where
  | function
  | loopPre
  | loopPost
  | loopBody
  deriving DecidableEq, Repr

/-- A block directly inside a statement, with the region that it opens, if any. -/
inductive Stmt.Encloses : Stmt → List Region → Block → Prop where
  | define (name : String) (params returns : List TypedName) (body : Block) :
      Encloses (.define name params returns body) [.function] body
  | branch (condition : Expr) (body : Block) : Encloses (.branch condition body) [] body
  | case (scrutinee : Expr) {cases : List Case} {c : Case} :
      c ∈ cases → Encloses (.switch scrutinee cases) [] c.body
  | loopPre (pre : Block) (condition : Expr) (post body : Block) :
      Encloses (.loop pre condition post body) [.loopPre] pre
  | loopPost (pre : Block) (condition : Expr) (post body : Block) :
      Encloses (.loop pre condition post body) [.loopPost] post
  | loopBody (pre : Block) (condition : Expr) (post body : Block) :
      Encloses (.loop pre condition post body) [.loopBody] body
  | block (body : Block) : Encloses (.block body) [] body

/-- A block that lies in another one at any depth, with the regions around it, innermost first. -/
inductive Block.Contains : Block → List Region → Block → Prop where
  | self (b : Block) : Contains b [] b
  | inside {b body c : Block} {s : Stmt} {regions path : List Region} :
      s ∈ b → s.Encloses regions body → Contains body path c → Contains b (path ++ regions) c

theorem Stmt.exists_encloses_iff {s : Stmt} {c : Block} :
    (∃ regions, s.Encloses regions c) ↔ c ∈ s.blocks := by
  constructor
  · rintro ⟨regions, h⟩
    cases h with
    | case _ hc => exact List.mem_map_of_mem hc
    | _ => simp [Stmt.blocks]
  · intro h
    cases s with
    | define name params returns body =>
        obtain rfl := List.mem_singleton.mp h
        exact ⟨_, .define name params returns c⟩
    | branch condition body =>
        obtain rfl := List.mem_singleton.mp h
        exact ⟨_, .branch condition c⟩
    | switch scrutinee cases =>
        obtain ⟨c, hc, rfl⟩ := List.mem_map.mp h
        exact ⟨_, .case scrutinee hc⟩
    | loop pre condition post body =>
        simp only [Stmt.blocks, List.mem_cons, List.not_mem_nil, or_false] at h
        rcases h with rfl | rfl | rfl
        · exact ⟨_, .loopPre ..⟩
        · exact ⟨_, .loopPost ..⟩
        · exact ⟨_, .loopBody ..⟩
    | block body =>
        obtain rfl := List.mem_singleton.mp h
        exact ⟨_, .block c⟩
    | _ => cases h

theorem Stmt.Encloses.sizeOf_lt {s : Stmt} {regions : List Region} {c : Block}
    (h : s.Encloses regions c) : sizeOf c < sizeOf s := by
  cases h with
  | @case scrutinee cases c hc =>
      have hlt := List.sizeOf_lt_of_mem hc
      obtain ⟨value, body⟩ := c
      simp only [Stmt.switch.sizeOf_spec, Case.mk.sizeOf_spec] at hlt ⊢
      omega
  | define =>
      rw [Stmt.define.sizeOf_spec]
      omega
  | branch =>
      rw [Stmt.branch.sizeOf_spec]
      omega
  | loopPre | loopPost | loopBody =>
      rw [Stmt.loop.sizeOf_spec]
      omega
  | block =>
      rw [Stmt.block.sizeOf_spec]
      omega

/-- What is shown of a block from the blocks directly inside its statements holds of all
blocks. -/
theorem Block.induction_inside {motive : Block → Prop}
    (step : ∀ b : Block, (∀ s ∈ b, ∀ regions c, s.Encloses regions c → motive c) → motive b)
    (b : Block) : motive b :=
  step b fun s hs _ c h =>
    have : sizeOf c < sizeOf b := Nat.lt_trans h.sizeOf_lt (List.sizeOf_lt_of_mem hs)
    Block.induction_inside step c
termination_by sizeOf b

/-! ## Places -/

namespace Place

/-- Where the statements of a block stand that opens a region. -/
def enter (place : Place) : Region → Place
  | .function => ⟨false, true⟩
  | .loopPre | .loopPost => ⟨false, place.inFunction⟩
  | .loopBody => ⟨true, place.inFunction⟩

/-- Where the statements of a block stand inside regions, innermost first. -/
def within (place : Place) (path : List Region) : Place :=
  path.foldr (fun region outer => outer.enter region) place

theorem within_append (place : Place) (path regions : List Region) :
    place.within (path ++ regions) = (place.within regions).within path :=
  List.foldr_append

/-- The innermost region says whether `break` and `continue` may stand somewhere. -/
theorem inLoopBody_within_outermost (path : List Region) :
    (outermost.within path).inLoopBody = true ↔ path.head? = some .loopBody := by
  cases path with
  | nil => simp [within, outermost]
  | cons region path => cases region <;> simp [within, enter]

/-- A function anywhere around says that `leave` may stand somewhere. -/
theorem inFunction_within_outermost (path : List Region) :
    (outermost.within path).inFunction = true ↔ .function ∈ path := by
  induction path with
  | nil => simp [within, outermost]
  | cons region path ih =>
      cases region with
      | function => simp [within, enter]
      | loopPre | loopPost | loopBody => simpa [within, enter] using ih

end Place

/-- A property of the blocks inside a block at any depth, from the blocks directly inside its
statements. -/
theorem Block.iff_forall_contains (Whole Own : Block → Place → Prop)
    (unfold : ∀ b place, Whole b place ↔ Own b place ∧
      ∀ s ∈ b, ∀ regions c, s.Encloses regions c → Whole c (place.within regions))
    (b : Block) (place : Place) :
    Whole b place ↔ ∀ path c, b.Contains path c → Own c (place.within path) := by
  constructor
  · intro h path c hc
    induction hc generalizing place with
    | self b => exact ((unfold b place).mp h).1
    | @inside b body c s regions path hs hregions _ ih =>
        rw [Place.within_append]
        exact ih (place.within regions) (((unfold b place).mp h).2 s hs regions body hregions)
  · intro h
    induction b using Block.induction_inside generalizing place with
    | step b ih =>
        refine (unfold b place).mpr ⟨h [] b (.self b), fun s hs regions c hc => ?_⟩
        refine ih s hs regions c hc (place.within regions) fun path d hd => ?_
        rw [← Place.within_append]
        exact h (path ++ regions) d (.inside hs hc hd)

theorem Block.each_iff_forall_contains {P : Stmt → Prop} {b : Block} :
    Block.Each P b ↔ ∀ path c, b.Contains path c → ∀ s ∈ c, P s := by
  refine Block.iff_forall_contains (fun b _ => Block.Each P b) (fun c _ => ∀ s ∈ c, P s) ?_
    b .outermost
  intro b _
  simp only [Block.each_iff (b := b), Stmt.each_iff, ← Stmt.exists_encloses_iff]
  grind

/-- All blocks define every function once. -/
theorem Block.definesOnce_iff_forall_contains {b : Block} :
    (Block.functions b).Nodup ∧ Block.Each Stmt.DefinesOnce b ↔
      ∀ path c, b.Contains path c → (Block.functions c).Nodup := by
  refine Block.iff_forall_contains
    (fun b _ => (Block.functions b).Nodup ∧ Block.Each Stmt.DefinesOnce b)
    (fun c _ => (Block.functions c).Nodup) ?_ b .outermost
  intro b _
  simp only [Block.each_iff (b := b), Stmt.each_iff, Stmt.DefinesOnce, ← Stmt.exists_encloses_iff]
  grind

/-! ## Control flow -/

/-- Whether a statement may stand somewhere, apart from what is inside it. -/
def Stmt.MayStand (place : Place) : Stmt → Prop
  | .break | .continue => place.inLoopBody = true
  | .leave => place.inFunction = true
  | _ => True

theorem Stmt.flowViolations_eq_nil_iff {s : Stmt} {place : Place} :
    s.flowViolations place = [] ↔ s.MayStand place ∧
      ∀ regions c, s.Encloses regions c → Block.flowViolations c (place.within regions) = [] := by
  constructor
  · intro h
    refine ⟨?_, fun regions c hc => ?_⟩
    · cases s with
      | «break» | «continue» | leave => simpa [MayStand, flowViolations] using h
      | _ => trivial
    · cases hc with
      | case _ hc => exact Case.flowViolations_eq_nil_iff.mp h _ hc
      | loopPre => exact (List.append_eq_nil_iff.mp (List.append_eq_nil_iff.mp h).1).1
      | loopPost => exact (List.append_eq_nil_iff.mp (List.append_eq_nil_iff.mp h).1).2
      | loopBody => exact (List.append_eq_nil_iff.mp h).2
      | _ => exact h
  · rintro ⟨hstand, hblocks⟩
    cases s with
    | define name params returns body => exact hblocks _ _ (.define name params returns body)
    | branch condition body => exact hblocks _ _ (.branch condition body)
    | switch scrutinee cases =>
        exact Case.flowViolations_eq_nil_iff.mpr fun c hc => hblocks _ _ (.case scrutinee hc)
    | loop pre condition post body =>
        refine List.append_eq_nil_iff.mpr ⟨List.append_eq_nil_iff.mpr ⟨?_, ?_⟩, ?_⟩
        · exact hblocks _ _ (.loopPre pre condition post body)
        · exact hblocks _ _ (.loopPost pre condition post body)
        · exact hblocks _ _ (.loopBody pre condition post body)
    | block body => exact hblocks _ _ (.block body)
    | «break» | «continue» | leave => simpa [MayStand, flowViolations] using hstand
    | _ => rfl

theorem Block.flowViolations_eq_nil_iff {b : Block} {place : Place} :
    Block.flowViolations b place = [] ↔ ∀ s ∈ b, s.flowViolations place = [] := by
  induction b with
  | nil => simp [Block.flowViolations]
  | cons s rest ih => rw [Block.flowViolations, List.append_eq_nil_iff, ih, List.forall_mem_cons]

theorem Block.flowViolations_iff_forall_contains {b : Block} {place : Place} :
    Block.flowViolations b place = [] ↔
      ∀ path c, b.Contains path c → ∀ s ∈ c, s.MayStand (place.within path) := by
  refine Block.iff_forall_contains (fun b place => Block.flowViolations b place = [])
    (fun c place => ∀ s ∈ c, s.MayStand place) ?_ b place
  intro b place
  rw [Block.flowViolations_eq_nil_iff]
  simp only [Stmt.flowViolations_eq_nil_iff]
  exact ⟨fun h => ⟨fun s hs => (h s hs).1, fun s hs => (h s hs).2⟩,
    fun h s hs => ⟨h.1 s hs, h.2 s hs⟩⟩

/-! ## Names -/

/-- The pattern of names: a letter, `_` or `$`, and then letters, digits, `_`, `$` and dots.
Letters and digits are those of ASCII. -/
def IsNamePattern (x : String) : Prop :=
  ∃ c rest, x.toList = c :: rest ∧ (c.isAlpha = true ∨ c = '_' ∨ c = '$') ∧
    ∀ d ∈ rest, d.isAlphanum = true ∨ d = '_' ∨ d = '$' ∨ d = '.'

theorem isIdentifier_iff {x : String} : isIdentifier x = true ↔ IsNamePattern x := by
  unfold isIdentifier IsNamePattern
  cases x.toList with
  | nil => simp
  | cons c rest => simp [isIdentStart, isIdentPart, List.all_eq_true, or_assoc]

theorem identifierViolations_eq_nil_iff {x : String} :
    identifierViolations x = [] ↔ IsNamePattern x ∧ x ∉ reservedWords := by
  rw [← isIdentifier_iff]
  unfold identifierViolations
  split
  · next hempty =>
      subst hempty
      simp [isIdentifier]
  · split
    · next hpattern =>
        split
        · next hreserved => simp [hreserved]
        · next hreserved => simp [hpattern, hreserved]
    · next hpattern => simp [hpattern]

/-- A name occurs in an expression, as a variable or as a callee. -/
inductive Expr.Mentions : Expr → String → Prop where
  | variable (x : String) : Mentions (.variable x) x
  | callee (f : String) (args : List Expr) : Mentions (.call f args) f
  | arg (f : String) {args : List Expr} {e : Expr} {x : String} :
      e ∈ args → Mentions e x → Mentions (.call f args) x

/-- A name occurs in a statement, outside the blocks inside it: as a declared variable, a target,
a function, a parameter, a return or in its expression. -/
inductive Stmt.Mentions : Stmt → String → Prop where
  | declared {vars : List TypedName} {v : TypedName} (value : Option Expr) :
      v ∈ vars → Mentions (.declare vars value) v.name
  | target {targets : List String} {x : String} (value : Expr) :
      x ∈ targets → Mentions (.assign targets value) x
  | function (name : String) (params returns : List TypedName) (body : Block) :
      Mentions (.define name params returns body) name
  | param {params : List TypedName} {v : TypedName} (name : String) (returns : List TypedName)
      (body : Block) : v ∈ params → Mentions (.define name params returns body) v.name
  | return {returns : List TypedName} {v : TypedName} (name : String) (params : List TypedName)
      (body : Block) : v ∈ returns → Mentions (.define name params returns body) v.name
  | expression {s : Stmt} {e : Expr} {x : String} :
      s.expression? = some e → e.Mentions x → Mentions s x

mutual

theorem Expr.mem_identifiers_iff {x : String} : (e : Expr) → (x ∈ e.identifiers ↔ e.Mentions x)
  | .literal l => ⟨fun h => by simp [Expr.identifiers] at h, fun h => nomatch h⟩
  | .variable y => by
      rw [Expr.identifiers, List.mem_singleton]
      constructor
      · rintro rfl
        exact .variable x
      · rintro ⟨⟩
        rfl
  | .call f args => by
      rw [Expr.identifiers, List.mem_cons, Expr.mem_identifiersOfList_iff args]
      constructor
      · rintro (rfl | ⟨e, he, hx⟩)
        · exact .callee x args
        · exact .arg f he hx
      · intro h
        cases h with
        | callee => exact Or.inl rfl
        | arg _ he hx => exact Or.inr ⟨_, he, hx⟩

theorem Expr.mem_identifiersOfList_iff {x : String} : (es : List Expr) →
    (x ∈ Expr.identifiersOfList es ↔ ∃ e ∈ es, e.Mentions x)
  | [] => by simp [Expr.identifiersOfList]
  | e :: rest => by
      rw [Expr.identifiersOfList, List.mem_append, Expr.mem_identifiers_iff e,
        Expr.mem_identifiersOfList_iff rest, List.exists_mem_cons_iff]

end

theorem Stmt.mem_identifiers_iff {s : Stmt} {x : String} : x ∈ s.identifiers ↔ s.Mentions x := by
  have hexpression : x ∈ (s.expression?.map Expr.identifiers).getD [] ↔
      ∃ e, s.expression? = some e ∧ e.Mentions x := by
    cases s.expression? with
    | none => simp
    | some e => simp [Expr.mem_identifiers_iff]
  rw [Stmt.identifiers, List.mem_append, hexpression]
  constructor
  · rintro (h | ⟨e, he, hx⟩)
    · cases s with
      | assign targets value => exact .target value h
      | declare vars value =>
          obtain ⟨v, hv, rfl⟩ := List.mem_map.mp h
          exact .declared value hv
      | define name params returns body =>
          rcases List.mem_cons.mp h with rfl | h
          · exact .function x params returns body
          · obtain ⟨v, hv, rfl⟩ := List.mem_map.mp h
            rcases List.mem_append.mp hv with hv | hv
            · exact .param name returns body hv
            · exact .return name params body hv
      | _ => cases h
    · exact .expression he hx
  · intro h
    cases h with
    | declared _ hv => exact Or.inl (List.mem_map_of_mem hv)
    | target _ hx => exact Or.inl hx
    | function => exact Or.inl (List.mem_cons_self ..)
    | param _ _ _ hv =>
        exact Or.inl (List.mem_cons_of_mem _ (List.mem_map_of_mem (List.mem_append_left _ hv)))
    | «return» _ _ _ hv =>
        exact Or.inl (List.mem_cons_of_mem _ (List.mem_map_of_mem (List.mem_append_right _ hv)))
    | expression he hx => exact Or.inr ⟨_, he, hx⟩

theorem Stmt.nameViolations_iff_mentions {s : Stmt} :
    s.nameViolations = [] ↔ ∀ x, s.Mentions x → IsNamePattern x ∧ x ∉ reservedWords := by
  simp only [Stmt.nameViolations_eq_nil_iff, Stmt.mem_identifiers_iff,
    identifierViolations_eq_nil_iff]

/-! ## Switches and declarations -/

/-- The rules about the cases of a switch: there is one, only the last one can be a default case,
and no two cases have the same key. -/
structure Case.KeepRules (cases : List Case) : Prop where
  nonempty : cases ≠ []
  oneDefault : cases.countP (fun c => c.value.isNone) ≤ 1
  defaultLast : ∀ c ∈ cases.dropLast, c.value.isSome = true
  distinct : ((cases.filterMap Case.value).map Literal.caseKey).Nodup

theorem Stmt.switchViolations_eq_nil_iff {scrutinee : Expr} {cases : List Case} :
    (Stmt.switch scrutinee cases).switchViolations = [] ↔ Case.KeepRules cases := by
  cases cases with
  | nil => exact iff_of_false nofun fun h => h.nonempty rfl
  | cons c rest =>
      have hdistinct : caseViolations scrutinee (c :: rest) = [] ↔
          (((c :: rest).filterMap Case.value).map Literal.caseKey).Nodup := by
        rw [caseViolations, List.map_eq_nil_iff, repeatsBy_eq_nil_iff]
        simp
      have hviolations : (Stmt.switch scrutinee (c :: rest)).switchViolations =
        defaultViolations scrutinee (c :: rest) ++ caseViolations scrutinee (c :: rest) := rfl
      rw [hviolations, List.append_eq_nil_iff, hdistinct]
      constructor
      · rintro ⟨hdefault, hkeys⟩
        exact ⟨List.cons_ne_nil c rest, (defaultViolations_eq_nil_iff.mp hdefault).1,
          defaultViolations_eq_nil_iff_dropLast.mp hdefault, hkeys⟩
      · exact fun h => ⟨defaultViolations_eq_nil_iff_dropLast.mpr h.defaultLast, h.distinct⟩

theorem Block.switchViolations_iff_keepRules {c : Block} :
    (∀ s ∈ c, s.switchViolations = []) ↔ ∀ e cases, .switch e cases ∈ c → Case.KeepRules cases := by
  constructor
  · exact fun h e cases hs => Stmt.switchViolations_eq_nil_iff.mp (h _ hs)
  · intro h s hs
    cases s with
    | switch e cases => exact Stmt.switchViolations_eq_nil_iff.mpr (h e cases hs)
    | _ => rfl

theorem Block.declarationViolations_iff_nodup {c : Block} :
    (∀ s ∈ c, s.declarationViolations = []) ↔
      (∀ vars value, .declare vars value ∈ c → (TypedName.names vars).Nodup) ∧
        ∀ name params returns body, .define name params returns body ∈ c →
          (TypedName.names (params ++ returns)).Nodup := by
  constructor
  · refine fun h => ⟨fun vars value hs => ?_, fun name params returns body hs => ?_⟩
    · exact repeats_eq_nil_iff.mp (List.map_eq_nil_iff.mp (h _ hs))
    · exact repeats_eq_nil_iff.mp (List.map_eq_nil_iff.mp (h _ hs))
  · rintro ⟨hvars, hparams⟩ s hs
    cases s with
    | declare vars value =>
        exact List.map_eq_nil_iff.mpr (repeats_eq_nil_iff.mpr (hvars vars value hs))
    | define name params returns body =>
        exact List.map_eq_nil_iff.mpr
          (repeats_eq_nil_iff.mpr (hparams name params returns body hs))
    | _ => rfl

/-! ## Programs -/

/-- The rules for programs.  All but the last two are about each block of the program, whatever
regions it lies in. -/
structure Block.KeepsRules (b : Block) : Prop where
  names : ∀ path c, b.Contains path c → ∀ s ∈ c, ∀ x, s.Mentions x →
    IsNamePattern x ∧ x ∉ reservedWords
  switches : ∀ path c, b.Contains path c → ∀ e cases, .switch e cases ∈ c → Case.KeepRules cases
  declarations : ∀ path c, b.Contains path c → ∀ vars value, .declare vars value ∈ c →
    (TypedName.names vars).Nodup
  parameters : ∀ path c, b.Contains path c → ∀ name params returns body,
    .define name params returns body ∈ c → (TypedName.names (params ++ returns)).Nodup
  functions : ∀ path c, b.Contains path c → (Block.functions c).Nodup
  jumps : ∀ path c, b.Contains path c → .break ∈ c ∨ .continue ∈ c →
    path.head? = some .loopBody
  leaves : ∀ path c, b.Contains path c → .leave ∈ c → .function ∈ path

/-- A block whose statements may stand inside regions of a program. -/
theorem Block.forall_mayStand_iff {c : Block} {path : List Region} :
    (∀ s ∈ c, s.MayStand (Place.outermost.within path)) ↔
      (.break ∈ c ∨ .continue ∈ c → path.head? = some .loopBody) ∧
        (.leave ∈ c → .function ∈ path) := by
  constructor
  · intro h
    refine ⟨?_, fun hleave => ?_⟩
    · rintro (hbreak | hcontinue)
      · exact (Place.inLoopBody_within_outermost path).mp (h _ hbreak)
      · exact (Place.inLoopBody_within_outermost path).mp (h _ hcontinue)
    · exact (Place.inFunction_within_outermost path).mp (h _ hleave)
  · rintro ⟨hjumps, hleaves⟩ s hs
    cases s with
    | «break» => exact (Place.inLoopBody_within_outermost path).mpr (hjumps (Or.inl hs))
    | «continue» => exact (Place.inLoopBody_within_outermost path).mpr (hjumps (Or.inr hs))
    | leave => exact (Place.inFunction_within_outermost path).mpr (hleaves hs)
    | _ => trivial

/-- A program is reported without any message if and only if it keeps the rules at every depth. -/
theorem Block.report_isEmpty_iff_keepsRules (b : Block) :
    b.report.isEmpty = true ↔ b.KeepsRules := by
  have hvalid : b.report.isEmpty = true ↔ b.IsValid := by
    simp [Block.report, Report.isEmpty, Report.ofViolations, Block.IsValid]
  have hfunctions := Block.definesOnce_iff_forall_contains (b := b)
  rw [hvalid, Block.isValid_iff]
  simp only [Block.each_iff_forall_contains, Stmt.nameViolations_iff_mentions,
    Block.switchViolations_iff_keepRules, Block.declarationViolations_iff_nodup,
    Block.flowViolations_iff_forall_contains, Block.forall_mayStand_iff] at hfunctions ⊢
  constructor
  · rintro ⟨hnames, hswitches, hdeclarations, honce, houter, hflow⟩
    exact ⟨hnames, hswitches, fun path c hc => (hdeclarations path c hc).1,
      fun path c hc => (hdeclarations path c hc).2, hfunctions.mp ⟨houter, honce⟩,
      fun path c hc => (hflow path c hc).1, fun path c hc => (hflow path c hc).2⟩
  · intro h
    obtain ⟨houter, honce⟩ := hfunctions.mpr h.functions
    exact ⟨h.names, h.switches, fun path c hc => ⟨h.declarations path c hc, h.parameters path c hc⟩,
      honce, houter, fun path c hc => ⟨h.jumps path c hc, h.leaves path c hc⟩⟩

end SwitchHoist
