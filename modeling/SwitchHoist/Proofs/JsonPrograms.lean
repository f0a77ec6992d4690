import Mathlib.Logic.Basic
import SwitchHoist.Program.Json
import SwitchHoist.Proofs.JsonReading

/-!
# Programs and their JSON texts

The JSON value of a program is read as this program if the bound of the reader is no less than
the depth of the value, and it is not read at all otherwise.
-/

namespace SwitchHoist

namespace Json

/-! ## Depth within a bound -/

variable {n : Nat} {j : Json} {items : List Json} {members : List (String × Json)}

theorem depthList_le : depthList items ≤ n ↔ ∀ j ∈ items, j.depth ≤ n := by
  induction items with
  | nil => simp [depthList]
  | cons j rest ih => rw [depthList, Nat.max_le, ih, List.forall_mem_cons]

theorem depthMembers_le : depthMembers members ≤ n ↔ ∀ m ∈ members, m.2.depth ≤ n := by
  induction members with
  | nil => simp [depthMembers]
  | cons m rest ih => rw [depthMembers, Nat.max_le, ih, List.forall_mem_cons]

@[simp] theorem depth_array_le : (array items).depth ≤ n + 1 ↔ ∀ j ∈ items, j.depth ≤ n := by
  rw [depth, Nat.add_comm, Nat.add_le_add_iff_right, depthList_le]

@[simp] theorem depth_object_le :
    (object members).depth ≤ n + 1 ↔ ∀ m ∈ members, m.2.depth ≤ n := by
  rw [depth, Nat.add_comm, Nat.add_le_add_iff_right, depthMembers_le]

@[simp] theorem depth_array_ne_zero : (array items).depth ≠ 0 := by
  rw [depth]
  omega

@[simp] theorem depth_object_ne_zero : (object members).depth ≠ 0 := by
  rw [depth]
  omega

@[simp] theorem depth_string (s : String) : (string s).depth = 0 :=
  rfl

@[simp] theorem depth_null : null.depth = 0 :=
  rfl

end Json

/-! ## Reading what was written -/

/-- A value that is read as `x` if the bound is no less than its depth, and not at all
otherwise. -/
def DecodesTo {α : Type} (read? : Nat → Json → Option α) (j : Json) (x : α) : Prop :=
  ∀ n, read? n j = if j.depth ≤ n then some x else none

theorem bind_if {α β : Type} {p : Prop} [Decidable p] (x : α) (f : α → Option β) :
    (if p then some x else none).bind f = if p then f x else none := by
  split <;> rfl

section Lists

variable {α : Type} {read? : Nat → Json → Option α} {toJson : α → Json} {xs : List α}

theorem mapM_decodes (h : ∀ x ∈ xs, DecodesTo read? (toJson x) x) (n : Nat) :
    (xs.map toJson).mapM (read? n) =
      if ∀ j ∈ xs.map toJson, j.depth ≤ n then some xs else none := by
  induction xs with
  | nil => simp
  | cons x rest ih =>
      obtain ⟨hx, hrest⟩ := List.forall_mem_cons.mp h
      simp [hx n, ih hrest, bind_if, ite_and]

/-- An array is read item by item, with one array less in the bound. -/
theorem DecodesTo.array {list? : Nat → Json → Option (List α)} (hzero : ∀ j, list? 0 j = none)
    (hsucc : ∀ n j, list? (n + 1) j = Json.list? (read? n) j)
    (h : ∀ x ∈ xs, DecodesTo read? (toJson x) x) :
    DecodesTo list? (.array (xs.map toJson)) xs := by
  intro n
  cases n with
  | zero => simp [hzero]
  | succ n => rw [hsucc, Json.list?, mapM_decodes h, if_congr Json.depth_array_le rfl rfl]

end Lists

theorem DecodesTo.map {α β : Type} {read? : Nat → Json → Option α} {j : Json} {x : α}
    (h : DecodesTo read? j x) (f : α → β) : DecodesTo (fun n j => (read? n j).map f) j (f x) := by
  intro n
  simp only [h n]
  split <;> rfl

theorem optional?_decodes {α : Type} {read? : Nat → Json → Option α} {j : Json} {x : α}
    (h : DecodesTo read? j x) (hj : ∃ members, j = .object members) (n : Nat) :
    Json.optional? (read? n) (some j) = if j.depth ≤ n then some (some x) else none := by
  obtain ⟨members, rfl⟩ := hj
  rw [Json.optional?, h n]
  · split <;> rfl
  · exact fun hnull => nomatch hnull

/-! ## The parts of a program -/

section Records

attribute [local simp] bind_if ite_and Json.ofText? Json.record? Json.field? Json.choice?
  Json.required? Json.optional? Json.text?

theorem TypedName.decodes (v : TypedName) : DecodesTo TypedName.ofJson? v.toJson v := by
  obtain ⟨name, typ⟩ := v
  intro n
  cases n <;> cases typ <;> simp [ofJson?, toJson]

theorem TypedName.list_decodes (vs : List TypedName) :
    DecodesTo TypedName.listOfJson? (listToJson vs) vs :=
  .array (fun _ => rfl) (fun _ _ => rfl) fun v _ => v.decodes

theorem Json.texts_decode (xs : List String) :
    DecodesTo Json.texts? (.array (xs.map Json.string)) xs := by
  have htexts : ∀ x ∈ xs, DecodesTo (fun _ => Json.text?) (.string x) x := fun x _ n => by simp
  exact .array (fun _ => rfl) (fun _ _ => rfl) htexts

theorem LiteralKind.ofWord?_word (k : LiteralKind) : LiteralKind.ofWord? k.word = some k := by
  cases k <;> rfl

theorem Literal.decodes (l : Literal) : DecodesTo Literal.ofJson? l.toJson l := by
  obtain ⟨kind, value, typ⟩ := l
  intro n
  cases n with
  | zero => simp [ofJson?, toJson]
  | succ n =>
      cases typ <;> simp [ofJson?, toJson, LiteralKind.ofJson?, LiteralKind.ofWord?_word]

theorem Expr.listToJson_eq_map (es : List Expr) : Expr.listToJson es = es.map Expr.toJson := by
  induction es with
  | nil => rfl
  | cons e rest ih => rw [Expr.listToJson, ih, List.map_cons]

theorem Expr.call_decodes (f : String) {args : List Expr}
    (h : ∀ e ∈ args, DecodesTo Expr.ofJson? e.toJson e) :
    DecodesTo Expr.callOfJson?
      (.object [("function", .string f), ("args", .array (Expr.listToJson args))])
      (.call f args) := by
  have hargs : DecodesTo Expr.listOfJson? (.array (args.map Expr.toJson)) args :=
    .array (fun j => by simp [Expr.listOfJson?]) (fun n j => by simp [Expr.listOfJson?]) h
  rw [Expr.listToJson_eq_map]
  intro n
  cases n <;> simp [Expr.callOfJson?, hargs _]

mutual

theorem Expr.decodes : (e : Expr) → DecodesTo Expr.ofJson? e.toJson e
  | .literal l => by
      intro n
      cases n <;> simp [Expr.ofJson?, Expr.toJson, Literal.decodes l _]
  | .variable x => by
      intro n
      cases n <;> simp [Expr.ofJson?, Expr.toJson]
  | .call f args => by
      intro n
      cases n <;> simp [Expr.ofJson?, Expr.toJson, Expr.call_decodes f (Expr.all_decode args) _]

theorem Expr.all_decode : (es : List Expr) → ∀ e ∈ es, DecodesTo Expr.ofJson? e.toJson e
  | [] => fun _ he => nomatch he
  | e :: rest => List.forall_mem_cons.mpr ⟨Expr.decodes e, Expr.all_decode rest⟩

end

theorem Expr.exists_toJson_eq (e : Expr) : ∃ members, e.toJson = .object members := by
  cases e <;> exact ⟨_, by rw [Expr.toJson]⟩

theorem Expr.option_decodes (value : Option Expr) (n : Nat) :
    Json.optional? (Expr.ofJson? n) (some (Expr.optionToJson value)) =
      if (Expr.optionToJson value).depth ≤ n then some value else none := by
  cases value with
  | none => simp [Expr.optionToJson]
  | some e => exact optional?_decodes e.decodes e.exists_toJson_eq n

theorem Literal.option_decodes (value : Option Literal) (n : Nat) :
    Json.optional? (Literal.ofJson? n) (some (Literal.optionToJson value)) =
      if (Literal.optionToJson value).depth ≤ n then some value else none := by
  cases value with
  | none => simp [Literal.optionToJson]
  | some l => exact optional?_decodes l.decodes ⟨_, rfl⟩ n

theorem Stmt.assign_decodes (targets : List String) (value : Expr) :
    DecodesTo Stmt.assignOfJson?
      (.object [("targets", .array (targets.map Json.string)), ("value", value.toJson)])
      (.assign targets value) := by
  intro n
  cases n <;> simp [Stmt.assignOfJson?, Json.texts_decode targets _, Expr.decodes value _]

theorem Stmt.declare_decodes (vars : List TypedName) (value : Option Expr) :
    DecodesTo Stmt.declareOfJson?
      (.object [("variables", TypedName.listToJson vars), ("value", Expr.optionToJson value)])
      (.declare vars value) := by
  intro n
  cases n <;>
    simp [Stmt.declareOfJson?, TypedName.list_decodes vars _, Expr.option_decodes value _,
      -Json.optional?]

theorem Block.listToJson_eq_map (b : Block) : Block.listToJson b = b.map Stmt.toJson := by
  induction b with
  | nil => rfl
  | cons s rest ih => rw [Block.listToJson, ih, List.map_cons]

/-- The JSON value of a case. -/
def Case.toJson (c : Case) : Json :=
  .object [("value", Literal.optionToJson c.value), ("body", Block.toJson c.body)]

theorem Case.listToJson_eq_map (cases : List Case) :
    Case.listToJson cases = cases.map Case.toJson := by
  induction cases with
  | nil => rfl
  | cons c rest ih =>
      obtain ⟨value, body⟩ := c
      rw [Case.listToJson, ih, List.map_cons]
      rfl

theorem Block.decodes_of_forall {b : Block} (h : ∀ s ∈ b, DecodesTo Stmt.ofJson? s.toJson s) :
    DecodesTo Block.ofJsonWithin? b.toJson b := by
  have hlist : DecodesTo Stmt.listOfJson? (.array (b.map Stmt.toJson)) b :=
    .array (fun j => by simp [Stmt.listOfJson?]) (fun n j => by simp [Stmt.listOfJson?]) h
  intro n
  rw [Block.toJson, Block.listToJson_eq_map]
  cases n <;> simp [Block.ofJsonWithin?, hlist _]

section Bodies

variable {body : Block} (hbody : ∀ s ∈ body, DecodesTo Stmt.ofJson? s.toJson s)

include hbody

theorem Stmt.define_decodes (f : String) (params returns : List TypedName) :
    DecodesTo Stmt.defineOfJson?
      (.object [("name", .string f), ("params", TypedName.listToJson params),
        ("returns", TypedName.listToJson returns), ("body", body.toJson)])
      (.define f params returns body) := by
  intro n
  cases n <;>
    simp [Stmt.defineOfJson?, TypedName.list_decodes _ _, Block.decodes_of_forall hbody _]

theorem Stmt.branch_decodes (condition : Expr) :
    DecodesTo Stmt.branchOfJson?
      (.object [("condition", condition.toJson), ("body", body.toJson)])
      (.branch condition body) := by
  intro n
  cases n <;>
    simp [Stmt.branchOfJson?, condition.decodes _, Block.decodes_of_forall hbody _]

theorem Stmt.loop_decodes {pre post : Block}
    (hpre : ∀ s ∈ pre, DecodesTo Stmt.ofJson? s.toJson s)
    (hpost : ∀ s ∈ post, DecodesTo Stmt.ofJson? s.toJson s) (condition : Expr) :
    DecodesTo Stmt.loopOfJson?
      (.object [("pre", pre.toJson), ("condition", condition.toJson), ("post", post.toJson),
        ("body", body.toJson)])
      (.loop pre condition post body) := by
  intro n
  cases n <;>
    simp [Stmt.loopOfJson?, condition.decodes _, Block.decodes_of_forall hpre _,
      Block.decodes_of_forall hpost _, Block.decodes_of_forall hbody _]

theorem Case.decodes (value : Option Literal) :
    DecodesTo Case.ofJson? (Case.toJson ⟨value, body⟩) ⟨value, body⟩ := by
  intro n
  rw [Case.toJson]
  cases n <;>
    simp [Case.ofJson?, Literal.option_decodes value _, Block.decodes_of_forall hbody _,
      -Json.optional?]

end Bodies

theorem Stmt.switch_decodes (scrutinee : Expr) {cases : List Case}
    (h : ∀ c ∈ cases, DecodesTo Case.ofJson? c.toJson c) :
    DecodesTo Stmt.switchOfJson?
      (.object [("expression", scrutinee.toJson), ("cases", .array (Case.listToJson cases))])
      (.switch scrutinee cases) := by
  have hcases : DecodesTo Case.listOfJson? (.array (cases.map Case.toJson)) cases :=
    .array (fun j => by simp [Case.listOfJson?]) (fun n j => by simp [Case.listOfJson?]) h
  intro n
  rw [Case.listToJson_eq_map]
  cases n <;> simp [Stmt.switchOfJson?, scrutinee.decodes _, hcases _]

/-- A statement is read by the reader for the content that its word names. -/
theorem Stmt.decodes_of_content {word : String} {content : Json} {s : Stmt}
    {read? : Nat → Json → Option Stmt}
    (hword : ∀ n, Stmt.ofJson? (n + 1) (.object [(word, content)]) = read? n content)
    (h : DecodesTo read? content s) : DecodesTo Stmt.ofJson? (.object [(word, content)]) s := by
  intro n
  cases n with
  | zero => simp [Stmt.ofJson?]
  | succ n => simp [hword, h n]

theorem Stmt.decodes_of_word {word : String} {s : Stmt} (hword : Stmt.ofWord? word = some s) :
    DecodesTo Stmt.ofJson? (.string word) s := by
  intro n
  cases n <;> simp [Stmt.ofJson?, hword]

mutual

theorem Stmt.decodes : (s : Stmt) → DecodesTo Stmt.ofJson? s.toJson s
  | .expr e => by
      obtain ⟨members, he⟩ := e.exists_toJson_eq
      have hread := e.decodes.map Stmt.expr
      rw [he] at hread
      rw [Stmt.toJson, he]
      exact Stmt.decodes_of_content (fun n => by simp [Stmt.ofJson?]) hread
  | .assign targets value =>
      Stmt.decodes_of_content (fun n => by simp [Stmt.ofJson?])
        (Stmt.assign_decodes targets value)
  | .declare vars value =>
      Stmt.decodes_of_content (fun n => by simp [Stmt.ofJson?]) (Stmt.declare_decodes vars value)
  | .define f params returns body =>
      Stmt.decodes_of_content (fun n => by simp [Stmt.ofJson?])
        (Stmt.define_decodes (Block.all_decode body) f params returns)
  | .branch condition body =>
      Stmt.decodes_of_content (fun n => by simp [Stmt.ofJson?])
        (Stmt.branch_decodes (Block.all_decode body) condition)
  | .switch scrutinee cases =>
      Stmt.decodes_of_content (fun n => by simp [Stmt.ofJson?])
        (Stmt.switch_decodes scrutinee (Case.all_decode cases))
  | .loop pre condition post body =>
      Stmt.decodes_of_content (fun n => by simp [Stmt.ofJson?])
        (Stmt.loop_decodes (Block.all_decode body) (Block.all_decode pre) (Block.all_decode post)
          condition)
  | .break => Stmt.decodes_of_word rfl
  | .continue => Stmt.decodes_of_word rfl
  | .leave => Stmt.decodes_of_word rfl
  | .block body =>
      Stmt.decodes_of_content (fun n => by simp [Stmt.ofJson?])
        ((Block.decodes_of_forall (Block.all_decode body)).map Stmt.block)

theorem Block.all_decode : (b : List Stmt) → ∀ s ∈ b, DecodesTo Stmt.ofJson? s.toJson s
  | [] => fun _ hs => nomatch hs
  | s :: rest => List.forall_mem_cons.mpr ⟨Stmt.decodes s, Block.all_decode rest⟩

theorem Case.all_decode : (cases : List Case) → ∀ c ∈ cases, DecodesTo Case.ofJson? c.toJson c
  | [] => fun _ hc => nomatch hc
  | ⟨value, body⟩ :: rest => List.forall_mem_cons.mpr
      ⟨Case.decodes (Block.all_decode body) value, Case.all_decode rest⟩

end

end Records

/-- The JSON value of a program is read as this program if the bound is no less than its
depth. -/
theorem Block.decodes (b : Block) : DecodesTo Block.ofJsonWithin? b.toJson b :=
  Block.decodes_of_forall (Block.all_decode b)

/-! ## The texts of a program -/

namespace Json

theorem isPlain_array {items : List Json} :
    (array items).IsPlain ↔ ∀ j ∈ items, j.IsPlain :=
  ⟨fun h => by cases h; assumption, .array⟩

@[simp] theorem isPlain_object {members : List (String × Json)} :
    (object members).IsPlain ↔ ∀ m ∈ members, m.2.IsPlain :=
  ⟨fun h => by cases h; assumption, .object⟩

theorem isPlain_ofText? (s : Option String) : (ofText? s).IsPlain := by
  cases s
  · exact .null
  · exact .string _

end Json

section Plain

attribute [local simp] Json.isPlain_ofText? Json.IsPlain.null Json.IsPlain.string

theorem TypedName.isPlain_listToJson (vs : List TypedName) : (listToJson vs).IsPlain := by
  simp [listToJson, toJson, Json.isPlain_array]

theorem Literal.isPlain_toJson (l : Literal) : l.toJson.IsPlain := by
  simp [toJson]

mutual

theorem Expr.isPlain_toJson : (e : Expr) → e.toJson.IsPlain
  | .literal l => by simp [Expr.toJson, l.isPlain_toJson]
  | .variable x => by simp [Expr.toJson]
  | .call f args => by simp [Expr.toJson, Expr.isPlain_listToJson args]

theorem Expr.isPlain_listToJson : (es : List Expr) → (Json.array (Expr.listToJson es)).IsPlain
  | [] => .array fun _ hj => nomatch hj
  | e :: rest => .array (List.forall_mem_cons.mpr
      ⟨Expr.isPlain_toJson e, Json.isPlain_array.mp (Expr.isPlain_listToJson rest)⟩)

end

theorem Expr.isPlain_optionToJson (value : Option Expr) :
    (Expr.optionToJson value).IsPlain := by
  cases value with
  | none => exact .null
  | some e => exact e.isPlain_toJson

theorem Literal.isPlain_optionToJson (value : Option Literal) :
    (Literal.optionToJson value).IsPlain := by
  cases value with
  | none => exact .null
  | some l => exact l.isPlain_toJson

attribute [local simp] TypedName.isPlain_listToJson Expr.isPlain_toJson
  Expr.isPlain_optionToJson Literal.isPlain_optionToJson

mutual

theorem Stmt.isPlain_toJson : (s : Stmt) → s.toJson.IsPlain
  | .expr e => by simp [Stmt.toJson]
  | .assign targets value => by simp [Stmt.toJson, Json.isPlain_array]
  | .declare vars value => by simp [Stmt.toJson]
  | .define f params returns body => by simp [Stmt.toJson, Block.isPlain_listToJson body]
  | .branch condition body => by simp [Stmt.toJson, Block.isPlain_listToJson body]
  | .switch scrutinee cases => by simp [Stmt.toJson, Case.isPlain_listToJson cases]
  | .loop pre condition post body => by
      simp [Stmt.toJson, Block.isPlain_listToJson pre, Block.isPlain_listToJson post,
        Block.isPlain_listToJson body]
  | .break => .string _
  | .continue => .string _
  | .leave => .string _
  | .block body => by simp [Stmt.toJson, Block.isPlain_listToJson body]

theorem Block.isPlain_listToJson : (b : List Stmt) → (Json.array (Block.listToJson b)).IsPlain
  | [] => .array fun _ hj => nomatch hj
  | s :: rest => .array (List.forall_mem_cons.mpr
      ⟨Stmt.isPlain_toJson s, Json.isPlain_array.mp (Block.isPlain_listToJson rest)⟩)

theorem Case.isPlain_listToJson : (cases : List Case) →
    (Json.array (Case.listToJson cases)).IsPlain
  | [] => .array fun _ hj => nomatch hj
  | ⟨value, body⟩ :: rest => .array (List.forall_mem_cons.mpr
      ⟨by simp [Block.isPlain_listToJson body],
        Json.isPlain_array.mp (Case.isPlain_listToJson rest)⟩)

end

theorem Block.isPlain_toJson (b : Block) : b.toJson.IsPlain := by
  simp [Block.toJson, Block.isPlain_listToJson b]

end Plain

theorem Block.parseJson?_of_writes {b : Block} {text : String}
    (h : Json.Writes text.toList b.toJson) :
    Block.parseJson? text = if Json.mostOpen text ≤ 127 then some b else none := by
  rw [Block.parseJson?, Json.parse?_of_writes h, Json.mostOpen_of_writes h]
  exact b.decodes 127

/-- Both texts of a program are read as this program if no more than 127 arrays and objects are
open at once in them, and otherwise they are rejected. -/
theorem Block.parseJson?_toJson (b : Block) :
    (Block.parseJson? b.toJson.compact =
      if Json.mostOpen b.toJson.compact ≤ 127 then some b else none) ∧
    Block.parseJson? b.toJson.pretty =
      if Json.mostOpen b.toJson.pretty ≤ 127 then some b else none := by
  have hwrites := b.isPlain_toJson.writes
  exact ⟨Block.parseJson?_of_writes hwrites.1, Block.parseJson?_of_writes (hwrites.2 0)⟩

/-- The empty program inside of so many blocks. -/
def Block.nested : Nat → Block
  | 0 => []
  | k + 1 => [.block (Block.nested k)]

/-- A block inside of a block takes three more arrays and objects. -/
theorem Block.depth_toJson_nested (k : Nat) : (Block.nested k).toJson.depth = 3 * k + 2 := by
  induction k with
  | zero => rfl
  | succ k ih =>
      rw [Block.toJson] at ih
      simp only [Block.nested, Block.toJson, Block.listToJson, Stmt.toJson, Json.depth,
        Json.depthMembers, Json.depthList] at ih ⊢
      omega

/-- So the text of a program with more than 41 blocks inside of each other is not read back. -/
theorem Block.parseJson?_nested (k : Nat) :
    Block.parseJson? (Block.nested k).toJson.compact =
      if k ≤ 41 then some (Block.nested k) else none := by
  have hwrites := (Block.nested k).isPlain_toJson.writes.1
  rw [Block.parseJson?_of_writes hwrites, Json.mostOpen_of_writes hwrites,
    Block.depth_toJson_nested]
  exact if_congr (by omega) rfl rfl

end SwitchHoist
