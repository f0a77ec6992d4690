import SwitchHoist.Proofs.BoundedExecution
import SwitchHoist.Proofs.Matching

/-!
# Linked states

Two executions are compared variable by variable.  A link says of a declared variable
of the right side which variable of the left side has the same value, or that the left
side has none for it.  Links give a matching, in which inner declarations hide outer
ones, and matched names are read and written alike.
-/

namespace SwitchHoist

/-- A variable declared on both sides, or on the right side only. -/
inductive Link where
  | both (x y : String)
  | right (y : String)
  deriving DecidableEq, Repr

/-- The variable of the right side. -/
def Link.name : Link → String
  | .both _ y => y
  | .right y => y

/-- The links of all declared variables, innermost first. -/
abbrev Links := List Link

namespace Links

/-- The names that stand for each other below linked declarations. -/
def agree : Links → Matching
  | [] => Eq
  | .both x y :: L => (agree L).bind x y
  | .right y :: L => fun a b => b ≠ y ∧ agree L a b

/-- The links behind two lists of names declared on both sides. -/
def declare : List String → List String → Links → Links
  | x :: xs, y :: ys, L => declare xs ys (.both x y :: L)
  | _, _, L => L

/-- Lists of declared variables with the values that links ask for. -/
inductive Joins {α : Type} : Links → List (String × α) → List (String × α) → Prop where
  | nil : Joins [] [] []
  | both {x y : String} {v : α} {L : Links} {E F : List (String × α)} :
      Joins L E F → Joins (.both x y :: L) ((x, v) :: E) ((y, v) :: F)
  | right {y : String} {v : α} {L : Links} {E F : List (String × α)} :
      Joins L E F → Joins (.right y :: L) E ((y, v) :: F)

@[simp] theorem declare_nil (L : Links) : declare [] [] L = L := rfl

theorem agree_declare (xs ys : List String) (L : Links) :
    (declare xs ys L).agree = L.agree.bindAll xs ys := by
  induction xs generalizing ys L with
  | nil => simp [declare]
  | cons x xs ih =>
      cases ys with
      | nil => rfl
      | cons y ys =>
          show (declare xs ys (.both x y :: L)).agree = (L.agree.bind x y).bindAll xs ys
          exact ih ys (.both x y :: L)

theorem suffix_declare (xs ys : List String) (L : Links) : L <:+ declare xs ys L := by
  induction xs generalizing ys L with
  | nil => exact List.suffix_rfl
  | cons x xs ih =>
      cases ys with
      | nil => exact List.suffix_rfl
      | cons y ys =>
          show L <:+ declare xs ys (.both x y :: L)
          exact (List.suffix_cons _ L).trans (ih ys (.both x y :: L))

theorem exists_declare {xs ys : List String} (h : xs.length = ys.length) (L : Links) :
    ∃ K, declare xs ys L = K ++ L ∧ K.map Link.name = ys.reverse := by
  induction xs generalizing ys L with
  | nil =>
      have hys : ys = [] := List.eq_nil_of_length_eq_zero h.symm
      subst hys
      exact ⟨[], rfl, rfl⟩
  | cons x xs ih =>
      cases ys with
      | nil => simp at h
      | cons y ys =>
          obtain ⟨K, hK, hnames⟩ := ih (Nat.succ.inj h) (.both x y :: L)
          refine ⟨K ++ [.both x y], ?_, ?_⟩
          · rw [declare, hK, List.append_assoc]
            rfl
          · rw [List.map_append, hnames, List.reverse_cons]
            rfl

theorem declare_append {xs ys : List String} (h : xs.length = ys.length) (xs' ys' : List String)
    (L : Links) : declare (xs ++ xs') (ys ++ ys') L = declare xs' ys' (declare xs ys L) := by
  induction xs generalizing ys L with
  | nil =>
      have hys : ys = [] := List.eq_nil_of_length_eq_zero h.symm
      subst hys
      rfl
  | cons x xs ih =>
      cases ys with
      | nil => simp at h
      | cons y ys =>
          show declare (xs ++ xs') (ys ++ ys') (.both x y :: L) =
            declare xs' ys' (declare xs ys (.both x y :: L))
          exact ih (Nat.succ.inj h) (.both x y :: L)

variable {α : Type} {L : Links} {E F : List (String × α)}

/-- Names that stand for each other have the same entry, or are one name without an
entry. -/
theorem Joins.lookup (h : L.Joins E F) {a b : String} (hab : L.agree a b) :
    List.lookup a E = List.lookup b F ∧ (List.lookup a E = none → a = b) := by
  induction h with
  | nil => exact ⟨rfl, fun _ => hab⟩
  | both _ ih =>
      rcases hab with ⟨rfl, rfl⟩ | ⟨ha, hb, hab⟩
      · simp
      · rw [List.lookup_cons, List.lookup_cons, beq_false_of_ne ha, beq_false_of_ne hb]
        exact ih hab
  -- The entry on the right side belongs to no name of the left side, so it is passed over.
  | @right y v L E F _ ih =>
      have hb : List.lookup b ((y, v) :: F) = List.lookup b F := by
        rw [List.lookup_cons, beq_false_of_ne hab.1]
      rw [hb]
      exact ih hab.2

theorem Joins.set (h : L.Joins E F) {a b : String} (hab : L.agree a b) (v : α) :
    L.Joins (Env.set a v E) (Env.set b v F) := by
  induction h with
  | nil => exact .nil
  | both h ih =>
      rcases hab with ⟨rfl, rfl⟩ | ⟨ha, hb, hab⟩
      · simpa [Env.set] using h.both
      · rw [Env.set, Env.set, if_neg ha, if_neg hb]
        exact (ih hab).both
  | right _ ih =>
      rw [Env.set, if_neg hab.1]
      exact (ih hab.2).right

theorem Joins.length_eq (h : L.Joins E F) {E' F' : List (String × α)} (h' : L.Joins E' F') :
    E.length = E'.length ∧ F.length = F'.length := by
  induction h generalizing E' F' with
  | nil =>
      cases h'
      exact ⟨rfl, rfl⟩
  | both _ ih =>
      cases h' with
      | both h' =>
          obtain ⟨hE, hF⟩ := ih h'
          exact ⟨congrArg Nat.succ hE, congrArg Nat.succ hF⟩
  | right _ ih =>
      cases h' with
      | right h' =>
          obtain ⟨hE, hF⟩ := ih h'
          exact ⟨hE, congrArg Nat.succ hF⟩

/-- The entries of inner links can be taken off. -/
theorem Joins.of_append {K : Links} (h : (K ++ L).Joins E F) :
    ∃ E₁ E₀ F₁ F₀, E = E₁ ++ E₀ ∧ F = F₁ ++ F₀ ∧ L.Joins E₀ F₀ ∧
      F₁.map Prod.fst = K.map Link.name := by
  induction K generalizing E F with
  | nil => exact ⟨[], E, [], F, rfl, rfl, h, rfl⟩
  | cons l K ih =>
      cases h with
      | both h =>
          obtain ⟨E₁, E₀, F₁, F₀, rfl, rfl, h₀, hnames⟩ := ih h
          exact ⟨_ :: E₁, E₀, _ :: F₁, F₀, rfl, rfl, h₀, congrArg (_ :: ·) hnames⟩
      | right h =>
          obtain ⟨E₁, E₀, F₁, F₀, rfl, rfl, h₀, hnames⟩ := ih h
          exact ⟨E₁, E₀, _ :: F₁, F₀, rfl, rfl, h₀, congrArg (_ :: ·) hnames⟩

end Links

variable {W : World}

/-- Linked variables have the same values, and nothing else differs. -/
structure Links.Linked (L : Links) (σ τ : State W) : Prop where
  env : L.Joins σ.env τ.env
  globals : σ.globals = τ.globals
  trace : σ.trace = τ.trace

namespace Links.Linked

variable {L : Links} {σ τ : State W}

theorem read (h : L.Linked σ τ) {a b : String} (hab : L.agree a b) : σ.read a = τ.read b := by
  obtain ⟨hlookup, hnone⟩ := h.env.lookup hab
  rw [State.read, State.read, ← hlookup, h.globals]
  cases ha : List.lookup a σ.env with
  | none => rw [hnone ha]
  | some v => rfl

theorem write (h : L.Linked σ τ) {a b : String} (hab : L.agree a b) (v : W.Value) :
    L.Linked (σ.write a v) (τ.write b v) := by
  obtain ⟨hlookup, hnone⟩ := h.env.lookup hab
  unfold State.write
  rw [← hlookup]
  cases ha : List.lookup a σ.env with
  -- Neither side has declared the variable, so both are the same global one.
  | none =>
      refine ⟨h.env, ?_, h.trace⟩
      rw [hnone ha, h.globals]
      rfl
  | some w => exact ⟨h.env.set hab v, h.globals, h.trace⟩

theorem writeAll (h : L.Linked σ τ) {xs ys : List String} (hxs : List.Forall₂ L.agree xs ys)
    (vs : List W.Value) : L.Linked (σ.writeAll xs vs) (τ.writeAll ys vs) := by
  induction hxs generalizing vs σ τ with
  | nil => exact h
  | @cons x y xs ys hxy _ ih =>
      cases vs with
      | nil => exact h
      | cons v vs =>
          show L.Linked ((σ.write x v).writeAll xs vs) ((τ.write y v).writeAll ys vs)
          exact ih (h.write hxy v) vs

theorem declareAll (h : L.Linked σ τ) {xs ys : List String} {vs : List W.Value}
    (hxs : xs.length = vs.length) (hys : ys.length = vs.length) :
    (Links.declare xs ys L).Linked (σ.declareAll xs vs) (τ.declareAll ys vs) := by
  induction vs generalizing xs ys L σ τ with
  | nil =>
      rw [List.eq_nil_of_length_eq_zero hxs, List.eq_nil_of_length_eq_zero hys]
      exact h
  | cons v vs ih =>
      obtain ⟨x, xs, rfl⟩ := List.exists_cons_of_length_eq_add_one hxs
      obtain ⟨y, ys, rfl⟩ := List.exists_cons_of_length_eq_add_one hys
      have hxy : Links.Linked (.both x y :: L) (σ.declare x v) (τ.declare y v) :=
        ⟨h.env.both, h.globals, h.trace⟩
      show (Links.declare xs ys (.both x y :: L)).Linked ((σ.declare x v).declareAll xs vs)
        ((τ.declare y v).declareAll ys vs)
      exact ih hxy (Nat.succ.inj hxs) (Nat.succ.inj hys)

theorem traced (h : L.Linked σ τ) (t : W.Trace) : L.Linked (σ.traced t) (τ.traced t) :=
  ⟨h.env, h.globals, rfl⟩

/-- The end of a scope takes linked states back to the links in front of it. -/
theorem restore (h : L.Linked σ τ) {L' : Links} (hL : L <:+ L') {σ' τ' : State W}
    (h' : L'.Linked σ' τ') :
    L.Linked (σ'.restore σ.env.length) (τ'.restore τ.env.length) := by
  -- What is left when the inner links are taken off is as long as the lists in front of the
  -- scope, so it is just what the end of the scope keeps.
  obtain ⟨K, rfl⟩ := hL
  obtain ⟨E₁, E₀, F₁, F₀, hE, hF, h₀, -⟩ := h'.env.of_append
  obtain ⟨hlenE, hlenF⟩ := h.env.length_eq h₀
  refine ⟨?_, h'.globals, h'.trace⟩
  simpa [State.restore, hE, hF, hlenE, hlenF] using h₀

theorem length_le (h : L.Linked σ τ) {L' : Links} (hL : L <:+ L') {σ' τ' : State W}
    (h' : L'.Linked σ' τ') : σ.env.length ≤ σ'.env.length := by
  obtain ⟨K, rfl⟩ := hL
  obtain ⟨E₁, E₀, F₁, F₀, hE, -, h₀, -⟩ := h'.env.of_append
  obtain ⟨hlen, -⟩ := h.env.length_eq h₀
  rw [hE, List.length_append, hlen]
  omega

end Links.Linked

/-! ## Linked results -/

/-- Results that are both missing, or end alike in linked states.  Normal ends have
links with a given property. -/
inductive Links.Related (L : Links) (P : Links → Prop) : W.Result → W.Result → Prop where
  | none : Related L P none none
  | some {o : Outcome} {L' : Links} {σ τ : State W} :
      L <:+ L' → (o = .normal → P L') → L'.Linked σ τ →
      Related L P (some (o, σ)) (some (o, τ))

/-- Results that are both missing, or end alike in states with the same links. -/
inductive Links.Alike (L : Links) : W.Result → W.Result → Prop where
  | none : Alike L none none
  | some {o : Outcome} {σ τ : State W} :
      L.Linked σ τ → Alike L (some (o, σ)) (some (o, τ))

theorem Links.Alike.related {L : Links} {r r' : W.Result} (h : L.Alike r r') :
    L.Related (· = L) r r' := by
  cases h with
  | none => exact .none
  | some h => exact .some List.suffix_rfl (fun _ => rfl) h

namespace Links.Related

variable {L : Links} {P Q : Links → Prop}

theorem normal {σ τ : State W} (h : L.Linked σ τ) (hP : P L) :
    L.Related P (Option.some (Outcome.normal, σ)) (Option.some (Outcome.normal, τ)) :=
  .some List.suffix_rfl (fun _ => hP) h

theorem mono {r r' : W.Result} (h : L.Related P r r') (hPQ : ∀ L', L <:+ L' → P L' → Q L') :
    L.Related Q r r' := by
  cases h with
  | none => exact .none
  | some hL hP hlinked => exact .some hL (fun ho => hPQ _ hL (hP ho)) hlinked

/-- Inner links extend outer ones. -/
theorem outer {L' : Links} {r r' : W.Result} (h : L'.Related P r r') (hL : L <:+ L') :
    L.Related P r r' := by
  cases h with
  | none => exact .none
  | some hL' hP hlinked => exact .some (hL.trans hL') hP hlinked

/-- The end of a scope leaves the links that were there in front of it. -/
theorem inScope {r r' : W.Result} (h : L.Related P r r') {σ τ : State W} (hlinked : L.Linked σ τ) :
    L.Alike (r.inScope σ) (r'.inScope τ) := by
  cases h with
  | none => exact .none
  | some hL _ h' => exact .some (hlinked.restore hL h')

theorem andThen {r r' : W.Result} (h : L.Related P r r') {f g : State W → W.Result}
    (hfg : ∀ (L' : Links) σ τ, L <:+ L' → P L' → L'.Linked σ τ → L'.Related Q (f σ) (g τ)) :
    L.Related Q (r.andThen f) (r'.andThen g) := by
  cases h with
  | none => exact .none
  | @some o L' σ τ hL hP hlinked =>
      cases o with
      | normal => exact (hfg L' σ τ hL (hP rfl) hlinked).outer hL
      | _ => exact .some hL (by simp) hlinked

end Links.Related

end SwitchHoist
