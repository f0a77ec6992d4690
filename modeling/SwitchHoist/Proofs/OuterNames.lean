import SwitchHoist.Proofs.FreeCallees
import SwitchHoist.Proofs.HoistedEffects

/-!
# The pass keeps the names from outside

A block uses the same variables from outside and calls the same functions from outside in
front of the pass and behind it.

What ties a case to the prefix is one matching.  The names that the case has declared so
far are exactly those with a new name, and their new names have been taken; every other
name stands for itself.  The renaming catches no occurrence in what is left, so a name
from outside is used by the case exactly if it is used by the prefix or by what is left.
Declarations may repeat a name: which of two names stands for which does not matter here.
-/

namespace SwitchHoist

/-! ## The matching of a renaming -/

namespace Renaming

/-- A name stands for its new name, and for itself without one. -/
def links (ρ : Renaming) : Matching :=
  fun x y => y = (ρ.target? x).getD x

theorem respects_links {ρ : Renaming} {taken : Names} {o : Occurrence}
    (h : ρ.keeps taken o = true) : ρ.Respects ρ.links o := by
  intro hfree
  simp only [Occurrence.isFree, Bool.not_eq_true'] at hfree
  simp only [keeps, hfree, Bool.false_or] at h
  cases htarget : ρ.target? o.name with
  | none => simp [links, htarget]
  | some y =>
      simp only [htarget, Bool.not_eq_true'] at h
      exact ⟨by simp [links, htarget], h⟩

theorem target?_insertAll_of_not_mem {ρ : Renaming} {xs ys : List String} {x : String}
    (hx : x ∉ xs) : (ρ.insertAll xs ys).target? x = ρ.target? x := by
  induction xs generalizing ρ ys with
  | nil => rfl
  | cons x' xs ih =>
      cases ys with
      | nil => rfl
      | cons y ys =>
          rw [List.mem_cons, not_or] at hx
          have hrest : ((ρ.insert x' y).insertAll xs ys).target? x = (ρ.insert x' y).target? x :=
            ih hx.2
          show ((ρ.insert x' y).insertAll xs ys).target? x = ρ.target? x
          rw [hrest, target?_insert, if_neg hx.1]

theorem exists_target?_insertAll {ρ : Renaming} {xs ys : List String}
    (hlen : xs.length = ys.length) {x : String} (hx : x ∈ xs) :
    ∃ y ∈ ys, (ρ.insertAll xs ys).target? x = some y := by
  induction xs generalizing ρ ys with
  | nil => cases hx
  | cons x' xs ih =>
      cases ys with
      | nil => cases hlen
      | cons y ys =>
          show ∃ z ∈ y :: ys, ((ρ.insert x' y).insertAll xs ys).target? x = some z
          by_cases hmem : x ∈ xs
          · obtain ⟨z, hz, htarget⟩ := ih (ρ := ρ.insert x' y) (Nat.succ.inj hlen) hmem
            exact ⟨z, List.mem_cons_of_mem _ hz, htarget⟩
          · -- The name is not declared again, so its first new name stays.
            obtain rfl : x = x' := (List.mem_cons.mp hx).resolve_right hmem
            refine ⟨y, List.mem_cons_self .., ?_⟩
            rw [target?_insertAll_of_not_mem hmem, target?_insert, if_pos rfl]

end Renaming

namespace Follower

/-- A case renames what it has declared so far to names that have been taken, and the
renaming catches no occurrence in what is left. -/
structure Tidy (own taken : Names) (f : Follower) : Prop where
  mapped : ∀ x ∈ own, ∃ y ∈ taken, f.renames.target? x = some y
  kept : ∀ x, x ∉ own → f.renames.target? x = none
  keeps : f.renames.preserves taken f.rest = true

theorem tidy_ofCase (c : Case) : Tidy [] [] (ofCase c) where
  mapped := fun _ hx => nomatch hx
  kept := fun _ _ => rfl
  keeps := (fits_ofCase c).keeps

section Tidy

variable {own taken : Names} {f g : Follower} {x y : String}

theorem Tidy.links_iff (h : f.Tidy own taken) (hx : x ∉ own) : f.renames.links x y ↔ y = x := by
  rw [Renaming.links, h.kept x hx, Option.getD_none]

theorem Tidy.mem_taken (h : f.Tidy own taken) (hx : x ∈ own) (hxy : f.renames.links x y) :
    y ∈ taken := by
  obtain ⟨z, hz, htarget⟩ := h.mapped x hx
  rw [Renaming.links, htarget, Option.getD_some] at hxy
  exact hxy ▸ hz

/-- A name from outside that is used where the renaming keeps all occurrences has not been
taken. -/
theorem Tidy.not_mem_taken (h : f.Tidy own taken) {b : Block}
    (hb : ∀ o ∈ b.occurrences, f.renames.keeps taken o = true) (hx : x ∉ own)
    (huses : Block.Uses x b) : x ∉ taken := by
  obtain ⟨o, ho, hfree, rfl⟩ := Block.mem_freeNames.mp (Block.mem_freeNames_iff.mpr huses)
  have hkeeps := hb o ho
  simp only [Occurrence.isFree, Bool.not_eq_true'] at hfree
  simpa [Renaming.keeps, hfree, h.kept _ hx] using hkeeps

/-- The renaming changes nothing about the names from outside. -/
theorem Tidy.uses_iff (h : f.Tidy own taken) {b : Block}
    (hb : ∀ o ∈ b.occurrences, f.renames.keeps taken o = true) :
    x ∉ own ∧ Block.Uses x b ↔ x ∉ taken ∧ Block.Uses x (f.renames.stmts b) := by
  have hmatches : Block.Matches f.renames.links b (f.renames.stmts b) :=
    Renaming.matches_stmts fun o ho => Renaming.respects_links (hb o ho)
  constructor
  · rintro ⟨hx, huses⟩
    obtain ⟨z, hz, hlink⟩ := hmatches.symm.exists_uses huses
    obtain rfl := (h.links_iff hx).mp hlink
    exact ⟨h.not_mem_taken hb hx huses, hz⟩
  · rintro ⟨hx, huses⟩
    obtain ⟨z, hz, hlink⟩ := hmatches.exists_uses huses
    have hzown : z ∉ own := fun hmem => hx (h.mem_taken hmem hlink)
    obtain rfl := (h.links_iff hzown).mp hlink
    exact ⟨hzown, hz⟩

/-- The occurrences in the next statement of a case are kept. -/
theorem Step.keeps_head {s t : Stmt} (h : Step Stmt.alphaEq taken s t f g)
    (hf : f.Tidy own taken) : ∀ o ∈ Block.occurrences [t], f.renames.keeps taken o = true := by
  intro o ho
  apply List.all_eq_true.mp hf.keeps
  rw [h.rest, Block.occurrences_cons]
  exact List.mem_append_left _ ho

/-- The statement taken from a case matches the statement of the first case. -/
theorem Step.exists_matches {s t : Stmt} (h : Step Stmt.alphaEq taken s t f g)
    (hf : f.Tidy own taken) : ∃ M, t.Matches M s := by
  have hrenamed : t.Matches f.renames.links (f.renames.stmt t) :=
    Renaming.matches_stmt fun o ho => Renaming.respects_links (h.keeps_head hf o ho)
  exact ⟨_, hrenamed.trans ((Stmt.alphaEq_iff s _).mp h.equal).symm⟩

/-- The two statements use the same names from outside. -/
theorem Step.uses_iff {s t : Stmt} (h : Step Stmt.alphaEq taken s t f g)
    (hf : f.Tidy own taken) : x ∉ own ∧ t.Uses x ↔ x ∉ taken ∧ s.Uses x := by
  have hequal := (Stmt.alphaEq_iff s (f.renames.stmt t)).mp h.equal
  have hs : s.Uses x ↔ (f.renames.stmt t).Uses x := by
    constructor
    · intro huses
      obtain ⟨y, hy, hyx⟩ := hequal.symm.exists_uses huses
      have hyx : x = y := hyx
      exact hyx ▸ hy
    · intro huses
      obtain ⟨y, hy, rfl⟩ := hequal.exists_uses huses
      exact hy
  have hone : ∀ u : Stmt, Block.Uses x [u] ↔ u.Uses x := fun u => by simp [Block.Uses]
  have hrename : f.renames.stmts [t] = [f.renames.stmt t] := rfl
  rw [hs, ← hone t, ← hone (f.renames.stmt t), ← hrename]
  exact hf.uses_iff (h.keeps_head hf)

/-- A step keeps the invariant, behind what the two statements declare. -/
theorem Step.tidy {s t : Stmt} (h : Step Stmt.alphaEq taken s t f g) (hf : f.Tidy own taken) :
    g.Tidy (own ++ t.declared) (taken ++ s.declared) where
  mapped := by
    intro z hz
    rw [h.renames]
    by_cases hdeclared : z ∈ t.declared
    · obtain ⟨y, hy, htarget⟩ := Renaming.exists_target?_insertAll h.arity hdeclared
      exact ⟨y, List.mem_append_right _ hy, htarget⟩
    · obtain ⟨y, hy, htarget⟩ := hf.mapped z ((List.mem_append.mp hz).resolve_right hdeclared)
      rw [Renaming.target?_insertAll_of_not_mem hdeclared]
      exact ⟨y, List.mem_append_left _ hy, htarget⟩
  kept := by
    intro z hz
    rw [List.mem_append, not_or] at hz
    rw [h.renames, Renaming.target?_insertAll_of_not_mem hz.2]
    exact hf.kept z hz.1
  keeps := h.preserves_rest hf.keeps

/-- A run keeps the invariant.  The statements it takes from a case match those it takes
from the first case, and use the same names from outside. -/
theorem Run.outside {b : Block} (h : Run Stmt.alphaEq taken b f g) (hf : f.Tidy own taken) :
    ∃ front, f.rest = front ++ g.rest ∧
      g.Tidy (own ++ Block.declared front) (taken ++ Block.declared b) ∧
      List.Forall₂ (fun t s => ∃ M, t.Matches M s) front b ∧
      ∀ x, x ∉ own ∧ Block.Uses x front ↔ x ∉ taken ∧ Block.Uses x b := by
  induction h generalizing own with
  | done => exact ⟨[], rfl, by simpa using hf, .nil, fun x => by simp [Block.Uses]⟩
  | @step taken s t b f g h hstep _ ih =>
      obtain ⟨front, hrest, htidy, hmatches, huses⟩ := ih (hstep.tidy hf)
      refine ⟨t :: front, ?_, ?_, .cons (hstep.exists_matches hf) hmatches, fun x => ?_⟩
      · rw [hstep.rest, hrest, List.cons_append]
      · rw [Block.declared_cons, Block.declared_cons, ← List.append_assoc, ← List.append_assoc]
        exact htidy
      · have hhead := hstep.uses_iff hf (x := x)
        have htail := huses x
        rw [List.mem_append, not_or, and_assoc, List.mem_append, not_or, and_assoc] at htail
        rw [Block.Uses, Block.Uses, and_or_left, and_or_left, hhead, htail]

end Tidy

end Follower

/-! ## Cases behind a prefix -/

/-- A case and what is left of it behind a prefix agree in what they take from outside, and
the prefix declares no name from outside that is used in what is left. -/
structure Case.KeepsOutside (hoisted : Block) (c c' : Case) : Prop where
  value : c'.value = c.value
  functions : Block.functions c'.body = Block.functions c.body
  uses : ∀ x, Block.Uses x (hoisted ++ c'.body) ↔ Block.Uses x c.body
  calls : ∀ wide f,
    Block.AnyCalls wide f (hoisted ++ c'.body) ↔ Block.AnyCalls wide f c.body
  uncaught : ∃ own rest, c.body = own ++ rest ∧ own.length = hoisted.length ∧
    ∀ x, x ∉ Block.declared own → Block.Uses x rest →
      x ∉ Block.declared hoisted ∧ Block.Uses x c'.body

theorem Block.functions_eq_of_forall₂ {b c : Block}
    (h : List.Forall₂ (fun t s => ∃ M, Stmt.Matches M t s) b c) :
    Block.functions b = Block.functions c := by
  induction h with
  | nil => rfl
  | cons hs _ ih =>
      obtain ⟨M, hM⟩ := hs
      simp only [Block.functions] at ih
      simp only [Block.functions, List.filterMap_cons, hM.defined?_eq, ih]

theorem Block.anyCalls_iff_of_forall₂ {wide : Bool} {f : String} {b c : Block}
    (h : List.Forall₂ (fun t s => ∃ M, Stmt.Matches M t s) b c) :
    Block.AnyCalls wide f b ↔ Block.AnyCalls wide f c := by
  induction h with
  | nil => rfl
  | cons hs _ ih =>
      obtain ⟨M, hM⟩ := hs
      rw [Block.AnyCalls, Block.AnyCalls, hM.calls_iff, ih]

/-- What a whole run leaves of a case. -/
theorem Follower.Run.keepsOutside {hoisted : Block} {c : Case} {g : Follower}
    (h : Follower.Run Stmt.alphaEq [] hoisted (Follower.ofCase c) g)
    (hfunctions : Block.functions hoisted = []) : c.KeepsOutside hoisted g.toCase := by
  obtain ⟨front, hbody, htidy, hmatches, huses⟩ := h.outside (Follower.tidy_ofCase c)
  have hbody : c.body = front ++ g.rest := hbody
  have hkeeps : ∀ o ∈ Block.occurrences g.rest,
      g.renames.keeps ([] ++ Block.declared hoisted) o = true :=
    List.all_eq_true.mp htidy.keeps
  have hrest : ∀ x, x ∉ Block.declared front ∧ Block.Uses x g.rest ↔
      x ∉ Block.declared hoisted ∧ Block.Uses x g.toCase.body := fun x => htidy.uses_iff hkeeps
  have hrenamed : Block.Matches g.renames.links g.rest g.toCase.body :=
    Renaming.matches_stmts fun o ho => Renaming.respects_links (hkeeps o ho)
  refine ⟨h.rest.1, ?_, fun x => ?_, fun wide f => ?_, front, g.rest, hbody, ?_, fun x => ?_⟩
  · rw [hbody, Block.functions_append, Block.functions_eq_of_forall₂ hmatches, hfunctions,
      List.nil_append, hrenamed.functions_eq]
  · have hfront := huses x
    simp only [List.not_mem_nil, not_false_eq_true, true_and] at hfront
    rw [hbody, Block.uses_append, Block.uses_append, hrest x, hfront]
  · rw [hbody, Block.anyCalls_append, Block.anyCalls_append,
      Block.anyCalls_iff_of_forall₂ hmatches, hrenamed.anyCalls_iff]
  · exact hmatches.length_eq
  · intro hx hused
    exact (hrest x).mp ⟨hx, hused⟩

/-- Every case, the first included, keeps what it takes from outside. -/
theorem hoistPrefix_keepsOutside {live : Names} {e : Expr} {cases cases' : List Case}
    {hoisted : Block} (h : hoistPrefix Stmt.alphaEq live e cases = .ok (hoisted, cases')) :
    List.Forall₂ (Case.KeepsOutside hoisted) cases cases' := by
  have hfunctions := hoistPrefix_functions h
  obtain ⟨first, others, rest, followers, rfl, hfirst, rfl, -, hruns⟩ := hoistPrefix_eq_ok h
  refine .cons ⟨rfl, ?_, fun x => ?_, fun wide f => ?_, hoisted, rest, hfirst, rfl, ?_⟩ ?_
  · rw [hfirst, Block.functions_append, hfunctions, List.nil_append]
  · rw [hfirst]
  · rw [hfirst]
  · exact fun x hx hused => ⟨hx, hused⟩
  · rw [List.forall₂_map_right_iff]
    exact hruns.imp fun c g hrun => hrun.keepsOutside hfunctions

/-- What a prefix declares and what it calls is not in use where it is put. -/
structure Block.Unused (hoisted : Block) (live : Names) (e : Expr) (cases : List Case) :
    Prop where
  functions : Block.functions hoisted = []
  scrutinee : ∀ x ∈ Block.declared hoisted, x ∉ e.variableNames
  behind : ∀ x ∈ Block.declared hoisted, x ∉ live
  callees : ∀ wide f, Block.AnyCalls wide f hoisted → ∀ c ∈ cases, f ∉ Block.functions c.body

theorem hoistPrefix_unused {live : Names} {e : Expr} {cases cases' : List Case}
    {hoisted : Block} (h : hoistPrefix Stmt.alphaEq live e cases = .ok (hoisted, cases')) :
    hoisted.Unused live e cases := by
  have hfunctions := hoistPrefix_functions h
  obtain ⟨-, -, -, -, -, -, -, hmay, -⟩ := hoistPrefix_eq_ok h
  refine ⟨hfunctions, fun x hx => ?_, fun x hx => ?_, fun wide f hf c hc hdefined => ?_⟩
  · obtain ⟨s, hs, hx⟩ := List.mem_flatMap.mp hx
    exact (Pinned.allows_iff.mp (hmay.mem hs).1).2.1 x hx
  · obtain ⟨s, hs, hx⟩ := List.mem_flatMap.mp hx
    exact (hmay.mem hs).2 x hx
  · obtain ⟨s, hs, hcalled⟩ := hf.exists_mem
    exact (Pinned.allows_iff.mp (hmay.mem hs).1).2.2.2 f hcalled
      (List.mem_flatMap.mpr ⟨c, hc, hdefined⟩)

/-! ## A switch behind its prefix -/

section Switch

variable {live : Names} {e : Expr} {cases cases' : List Case} {hoisted : Block}

/-- A prefix and the switch behind it use what the switch used. -/
theorem hoistPrefix_uses_iff
    (h : hoistPrefix Stmt.alphaEq live e cases = .ok (hoisted, cases')) {x : String} :
    Block.Uses x (hoisted ++ [.switch e cases']) ↔ (Stmt.switch e cases).Uses x := by
  have hcases := hoistPrefix_keepsOutside h
  have hunused := hoistPrefix_unused h
  rw [Block.uses_append]
  constructor
  · rintro (hx | ⟨hnew, (hx | hx) | ⟨-, hx⟩⟩)
    · -- What the prefix uses, the first case used.
      obtain ⟨first, others, -, -, rfl, -, -, -, -⟩ := hoistPrefix_eq_ok h
      cases hcases with
      | cons hfirst _ =>
          have hused := (hfirst.uses x).mp (Block.uses_append.mpr (Or.inl hx))
          exact Or.inr (Case.uses_iff.mpr ⟨first, List.mem_cons_self .., hused⟩)
    · exact Or.inl hx
    · obtain ⟨c', hc', hx⟩ := Case.uses_iff.mp hx
      obtain ⟨c, hc, hkeeps⟩ := exists_mem_left_of_forall₂ hcases hc'
      have hused := (hkeeps.uses x).mp (Block.uses_append.mpr (Or.inr ⟨hnew, hx⟩))
      exact Or.inr (Case.uses_iff.mpr ⟨c, hc, hused⟩)
    · exact hx.elim
  · rintro (hx | hx)
    · exact Or.inr ⟨fun hnew => hunused.scrutinee x hnew hx, Or.inl (Or.inl hx)⟩
    · obtain ⟨c, hc, hx⟩ := Case.uses_iff.mp hx
      obtain ⟨c', hc', hkeeps⟩ := exists_mem_left_of_forall₂ hcases.flip hc
      rcases Block.uses_append.mp ((hkeeps.uses x).mpr hx) with hx | ⟨hnew, hx⟩
      · exact Or.inl hx
      · exact Or.inr ⟨hnew, Or.inl (Or.inr (Case.uses_iff.mpr ⟨c', hc', hx⟩))⟩

/-- A prefix and the switch behind it call what the switch called. -/
theorem hoistPrefix_anyCalls_iff
    (h : hoistPrefix Stmt.alphaEq live e cases = .ok (hoisted, cases')) {wide : Bool}
    {f : String} :
    Block.AnyCalls wide f (hoisted ++ [.switch e cases']) ↔
      (Stmt.switch e cases).Calls wide f := by
  have hcases := hoistPrefix_keepsOutside h
  have hunused := hoistPrefix_unused h
  rw [Block.anyCalls_append]
  constructor
  · rintro (hf | (hf | hf) | hf)
    · -- The first case made the calls of the prefix, and it defines none of the callees.
      obtain ⟨first, others, -, -, rfl, -, -, -, -⟩ := hoistPrefix_eq_ok h
      have hdefined := hunused.callees wide f hf first (List.mem_cons_self ..)
      cases hcases with
      | cons hfirst _ =>
          have hcalled := (hfirst.calls wide f).mp (Block.anyCalls_append.mpr (Or.inl hf))
          exact Or.inr (Case.anyCalls_iff.mpr
            ⟨first, List.mem_cons_self .., hdefined, hcalled⟩)
    · exact Or.inl hf
    · obtain ⟨c', hc', hdefined, hf⟩ := Case.anyCalls_iff.mp hf
      obtain ⟨c, hc, hkeeps⟩ := exists_mem_left_of_forall₂ hcases hc'
      rw [hkeeps.functions] at hdefined
      have hcalled := (hkeeps.calls wide f).mp (Block.anyCalls_append.mpr (Or.inr hf))
      exact Or.inr (Case.anyCalls_iff.mpr ⟨c, hc, hdefined, hcalled⟩)
    · exact hf.elim
  · rintro (hf | hf)
    · exact Or.inr (Or.inl (Or.inl hf))
    · obtain ⟨c, hc, hdefined, hf⟩ := Case.anyCalls_iff.mp hf
      obtain ⟨c', hc', hkeeps⟩ := exists_mem_left_of_forall₂ hcases.flip hc
      rw [← hkeeps.functions] at hdefined
      rcases Block.anyCalls_append.mp ((hkeeps.calls wide f).mpr hf) with hf | hf
      · exact Or.inl hf
      · exact Or.inr (Or.inl (Or.inr (Case.anyCalls_iff.mpr ⟨c', hc', hdefined, hf⟩)))

end Switch

/-! ## The whole pass -/

section Pass

variable {live : Names} {s : Stmt} {after front : Block} {x f : String} {wide : Bool}

theorem Stmt.uses_hoistOut_iff (h : s.hoistOut Stmt.alphaEq after live = .ok front) :
    Block.Uses x front ↔ s.Uses x := by
  rcases Stmt.hoistOut_eq_ok h with ⟨-, rfl⟩ | ⟨e, cases, hoisted, cases', rfl, hhoist, rfl⟩
  · simp [Block.Uses]
  · exact hoistPrefix_uses_iff hhoist

theorem Stmt.anyCalls_hoistOut_iff (h : s.hoistOut Stmt.alphaEq after live = .ok front) :
    Block.AnyCalls wide f front ↔ s.Calls wide f := by
  rcases Stmt.hoistOut_eq_ok h with ⟨-, rfl⟩ | ⟨e, cases, hoisted, cases', rfl, hhoist, rfl⟩
  · simp [Block.AnyCalls]
  · exact hoistPrefix_anyCalls_iff hhoist

/-- What stands in the place of a statement declares nothing else that is used behind it. -/
theorem Stmt.mem_declared_hoistOut_iff (h : s.hoistOut Stmt.alphaEq after live = .ok front)
    (hx : x ∈ Block.freeNames after ++ live) : x ∈ Block.declared front ↔ x ∈ s.declared := by
  rcases Stmt.hoistOut_eq_ok h with ⟨-, rfl⟩ | ⟨e, cases, hoisted, cases', rfl, hhoist, rfl⟩
  · simp
  · have hbehind : x ∉ Block.declared hoisted :=
      fun hnew => (hoistPrefix_unused hhoist).behind x hnew hx
    simp [hbehind, Stmt.declared]

/-- Of the names in use behind a block in its scope, the pass makes it declare no others. -/
theorem Block.Hoists.mem_declared_iff : {live : Names} → {b b' : Block} →
    Block.Hoists Stmt.alphaEq live b b' → x ∈ live →
    (x ∈ Block.declared b' ↔ x ∈ Block.declared b)
  | _, _, _, .nil, _ => Iff.rfl
  | _, _, _, .cons hs hfront hrest, hx => by
      rw [Block.declared_append, Block.declared_cons, List.mem_append, List.mem_append,
        Stmt.mem_declared_hoistOut_iff hfront (List.mem_append_right _ hx),
        hs.resembles.declared_eq, hrest.mem_declared_iff hx]

mutual

theorem Stmt.Hoists.uses_iff : {s s' : Stmt} → s.Hoists Stmt.alphaEq s' →
    (s'.Uses x ↔ s.Uses x)
  | _, _, .define _ _ _ hbody => and_congr_right fun _ => hbody.uses_iff
  | _, _, .branch _ hbody => or_congr_right hbody.uses_iff
  | _, _, .switch _ hcases => or_congr_right hcases.uses_iff
  | _, _, .loop c hpre hpost hbody => by
      rw [Stmt.Uses, Stmt.Uses, hpre.uses_iff, hpost.uses_iff, hbody.uses_iff]
      refine or_congr_right (and_congr_left fun hx => not_congr (hpre.mem_declared_iff ?_))
      -- A name used behind the first block is one of those that it must leave alone.
      simp only [loopNames, List.mem_append, Block.mem_freeNames_iff, or_assoc]
      exact hx
  | _, _, .block hbody => hbody.uses_iff
  | _, _, .same _ => Iff.rfl

/-- The pass keeps the variables that a block uses from outside. -/
theorem Block.Hoists.uses_iff : {live : Names} → {b b' : List Stmt} →
    Block.Hoists Stmt.alphaEq live b b' → (Block.Uses x b' ↔ Block.Uses x b)
  | _, _, _, .nil => Iff.rfl
  | live, _ :: rest, _, .cons hs hfront hrest => by
      rw [Block.uses_append, Block.Uses, Stmt.uses_hoistOut_iff hfront, hs.uses_iff,
        hrest.uses_iff]
      refine or_congr_right (and_congr_left fun hx => not_congr ?_)
      have hmem : x ∈ Block.freeNames rest ++ live :=
        List.mem_append_left _ (Block.mem_freeNames_iff.mpr hx)
      rw [Stmt.mem_declared_hoistOut_iff hfront hmem, hs.resembles.declared_eq]

theorem Case.Hoists.uses_iff : {cases cases' : List Case} →
    Case.Hoists Stmt.alphaEq cases cases' → (Case.Uses x cases' ↔ Case.Uses x cases)
  | _, _, .nil => Iff.rfl
  | _, _, .cons _ hbody hrest => or_congr hbody.uses_iff hrest.uses_iff

end

mutual

theorem Stmt.Hoists.calls_iff : {s s' : Stmt} → s.Hoists Stmt.alphaEq s' →
    (s'.Calls wide f ↔ s.Calls wide f)
  | _, _, .define _ _ _ hbody => by
      rw [Stmt.Calls, Stmt.Calls, hbody.functions_eq, hbody.anyCalls_iff]
  | _, _, .branch _ hbody => by
      rw [Stmt.Calls, Stmt.Calls, hbody.functions_eq, hbody.anyCalls_iff]
  | _, _, .switch _ hcases => by rw [Stmt.Calls, Stmt.Calls, hcases.anyCalls_iff]
  | _, _, .loop _ hpre hpost hbody => by
      rw [Stmt.Calls, Stmt.Calls, hpre.functions_eq, hpre.anyCalls_iff, hpost.functions_eq,
        hpost.anyCalls_iff, hbody.functions_eq, hbody.anyCalls_iff]
  | _, _, .block hbody => by
      rw [Stmt.Calls, Stmt.Calls, hbody.functions_eq, hbody.anyCalls_iff]
  | _, _, .same _ => Iff.rfl

/-- The pass keeps the functions that some statements call from outside. -/
theorem Block.Hoists.anyCalls_iff : {live : Names} → {b b' : List Stmt} →
    Block.Hoists Stmt.alphaEq live b b' → (Block.AnyCalls wide f b' ↔ Block.AnyCalls wide f b)
  | _, _, _, .nil => Iff.rfl
  | _, _, _, .cons hs hfront hrest => by
      rw [Block.anyCalls_append, Block.AnyCalls, Stmt.anyCalls_hoistOut_iff hfront, hs.calls_iff,
        hrest.anyCalls_iff]

theorem Case.Hoists.anyCalls_iff : {cases cases' : List Case} →
    Case.Hoists Stmt.alphaEq cases cases' →
    (Case.AnyCalls wide f cases' ↔ Case.AnyCalls wide f cases)
  | _, _, .nil => Iff.rfl
  | _, _, .cons _ hbody hrest => by
      rw [Case.AnyCalls, Case.AnyCalls, hbody.functions_eq, hbody.anyCalls_iff,
        hrest.anyCalls_iff]

end

end Pass

/-- Without an empty switch, a program has the same free variables and the same free callees
behind the pass as in front of it.  At every switch that the pass meets, nothing that the
prefix declares is in use where it is put or in what is left of a case, and the prefix calls
no function that a case defines. -/
theorem Block.hoist_keeps_outside {b : Block} (hcases : Block.Each Stmt.HasCases b) :
    ∃ b', b.hoist Stmt.alphaEq = .ok b' ∧
      (∀ x, x ∈ b'.freeNames ↔ x ∈ b.freeNames) ∧
      (∀ wide f, b'.Calls wide f ↔ b.Calls wide f) ∧
      ∀ Γ live e cases, Meets b.scope 0 Γ live e cases →
        ∃ hoisted cases', hoistPrefix Stmt.alphaEq live e cases = .ok (hoisted, cases') ∧
          hoisted.Unused live e cases ∧ List.Forall₂ (Case.KeepsOutside hoisted) cases cases' := by
  obtain ⟨b', hb⟩ := Block.exists_hoistBefore Stmt.alphaEq_faithful b [] hcases
  have hoists := Block.hoists_of_eq_ok b hb
  refine ⟨b', hb, fun x => ?_, fun wide f => ?_, fun Γ live e cases hmeets => ?_⟩
  · rw [Block.mem_freeNames_iff, Block.mem_freeNames_iff, hoists.uses_iff]
  · rw [Block.Calls, Block.Calls, hoists.functions_eq, hoists.anyCalls_iff]
  · have hroot : b.scope.context.Placed := fun _ hv => nomatch hv
    obtain ⟨hoisted, cases', hhoist⟩ :=
      exists_hoistPrefix Stmt.alphaEq_faithful live e (hmeets.hasCases hroot hcases)
    exact ⟨hoisted, cases', hhoist, hoistPrefix_unused hhoist, hoistPrefix_keepsOutside hhoist⟩

/-- Two cases that declare a name, in front of a loop. -/
def headerCases : List Case :=
  [⟨some ⟨.number, "0", none⟩,
      [.declareUntyped ["a"] (some (.call "f" [])), .expr (.call "g" [.variable "a"])]⟩,
    ⟨none,
      [.declareUntyped ["b"] (some (.call "f" [])),
        .block [.define "k" [] [] [], .expr (.call "k" [.variable "b", .variable "d"])]]⟩]

/-- A switch in the first block of a loop, whose body uses a variable from outside. -/
def headerSwitch : Block :=
  [.loop [.switch (.variable "x") headerCases] (.call "more" [.variable "c"]) []
    [.expr (.call "g" [.variable "b"])]]

theorem headerSwitch_hoist_keeps_outside :
    Block.Each Stmt.HasCases headerSwitch ∧
    (∃ b', headerSwitch.hoist Stmt.alphaEq = .ok b' ∧
      (∀ x, x ∈ b'.freeNames ↔ x ∈ headerSwitch.freeNames) ∧
      ∀ wide f, b'.Calls wide f ↔ headerSwitch.Calls wide f) ∧
    ∃ Γ, Meets headerSwitch.scope 0 Γ ["c", "b"] (.variable "x") headerCases ∧
      ∃ hoisted cases',
        hoistPrefix Stmt.alphaEq ["c", "b"] (.variable "x") headerCases = .ok (hoisted, cases') ∧
        hoisted.Unused ["c", "b"] (.variable "x") headerCases ∧
        List.Forall₂ (Case.KeepsOutside hoisted) headerCases cases' := by
  have hvalid : headerSwitch.IsValid := by decide +kernel
  obtain ⟨b', hb, hfree, hcalls, hprefix⟩ := Block.hoist_keeps_outside hvalid.hasCases
  have hmeets : Meets headerSwitch.scope 0 _ ["c", "b"] (.variable "x") headerCases :=
    .inside (List.mem_cons_self ..) (.here rfl)
  exact ⟨hvalid.hasCases, ⟨b', hb, hfree, hcalls⟩, _, hmeets, hprefix _ _ _ _ hmeets⟩

end SwitchHoist
