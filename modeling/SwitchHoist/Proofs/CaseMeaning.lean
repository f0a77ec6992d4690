import SwitchHoist.Hoisting.Pass
import SwitchHoist.Proofs.AlignedMatching
import SwitchHoist.Proofs.PrefixTaken
import SwitchHoist.Proofs.RenamedMatching

/-!
# Every case keeps its meaning up to declared names

Behind a taken prefix, a case is left with its remaining statements renamed.  The
invariant of a run ties three things together: the renaming of a case, the names
taken so far, and the matching behind the statements taken from the case and from
the first case.  A name with a new name stands for it, the new name has been taken,
and a name without one stands for itself unless it has been taken.

Since the renaming catches no occurrence in what is left, the whole case matches the
prefix followed by what is left of it.
-/

namespace SwitchHoist

namespace Renaming

/-- A renaming says the same as a matching, given the names taken so far. -/
structure Fits (ρ : Renaming) (taken : Names) (M : Matching) : Prop where
  mapped : ∀ x y, ρ.target? x = some y → M x y ∧ y ∈ taken
  kept : ∀ x, ρ.target? x = none → x ∉ taken → M x x

theorem fits_nil : Fits [] [] Eq where
  mapped := by simp
  kept := fun _ _ _ => rfl

/-- A pair of declared names, of which the new name has not been taken. -/
theorem Fits.insert {ρ : Renaming} {taken : Names} {M : Matching} (h : ρ.Fits taken M)
    (x : String) {y : String} (hy : y ∉ taken) :
    (ρ.insert x y).Fits (taken ++ [y]) (M.bind x y) where
  mapped := by
    intro a b hab
    rw [target?_insert] at hab
    split at hab
    · next hax =>
        cases hab
        exact ⟨Or.inl ⟨hax, rfl⟩, by simp⟩
    · next hax =>
        obtain ⟨hM, hb⟩ := h.mapped a b hab
        -- An older new name has been taken and `y` has not, so they differ.
        have hby : b ≠ y := fun hby => hy (hby ▸ hb)
        exact ⟨Or.inr ⟨hax, hby, hM⟩, List.mem_append_left _ hb⟩
  kept := by
    intro a ha hmem
    rw [target?_insert] at ha
    split at ha
    · contradiction
    · next hax =>
        rw [List.mem_append, not_or, List.mem_singleton] at hmem
        exact Or.inr ⟨hax, hmem.2, h.kept a ha hmem.1⟩

/-- Lists of declared names, of which the new names are distinct and have not been
taken. -/
theorem Fits.insertAll {ρ : Renaming} {taken : Names} {M : Matching} (h : ρ.Fits taken M)
    (xs : List String) {ys : List String} (hlen : xs.length = ys.length) (hnodup : ys.Nodup)
    (hys : ∀ y ∈ ys, y ∉ taken) :
    (ρ.insertAll xs ys).Fits (taken ++ ys) (M.bindAll xs ys) := by
  induction ys generalizing xs ρ taken M with
  | nil =>
      have hxs : xs = [] := List.eq_nil_of_length_eq_zero hlen
      simpa [hxs, Renaming.insertAll] using h
  | cons y ys ih =>
      cases xs with
      | nil => simp at hlen
      | cons x xs =>
          have hy : y ∉ taken := hys y (List.mem_cons_self ..)
          rw [List.nodup_cons] at hnodup
          have hrest := ih (h.insert x hy) xs (Nat.succ.inj hlen) hnodup.2 (by
            intro z hz
            rw [List.mem_append, not_or, List.mem_singleton]
            exact ⟨hys z (List.mem_cons_of_mem _ hz), fun hzy => hnodup.1 (hzy ▸ hz)⟩)
          rw [List.append_assoc] at hrest
          show ((ρ.insert x y).insertAll xs ys).Fits (taken ++ y :: ys) ((M.bind x y).bindAll xs ys)
          exact hrest

/-- What fits and keeps an occurrence respects it. -/
theorem Fits.respects {ρ : Renaming} {taken : Names} {M : Matching} (h : ρ.Fits taken M)
    {o : Occurrence} (ho : ρ.keeps taken o = true) : ρ.Respects M o := by
  intro hfree
  simp only [Occurrence.isFree, Bool.not_eq_true'] at hfree
  simp only [keeps, hfree, Bool.false_or] at ho
  cases htarget : ρ.target? o.name with
  | none =>
      simp only [htarget, Bool.not_eq_true', List.contains_eq_mem, decide_eq_false_iff_not] at ho
      exact h.kept o.name htarget ho
  | some y =>
      simp only [htarget, Bool.not_eq_true'] at ho
      exact ⟨(h.mapped o.name y htarget).1, ho⟩

end Renaming

theorem Block.occurrences_cons (s : Stmt) (b : Block) :
    Block.occurrences (s :: b) =
      Block.occurrences [s] ++ (Block.walk b (Scopes.initial.bindAll s.declared)).1 := by
  simp [Block.occurrences, Block.walk, Stmt.walk_snd]

namespace Follower

/-- The renaming of a case fits, and it keeps every occurrence in what is left. -/
structure Fits (taken : Names) (M : Matching) (f : Follower) : Prop where
  renames : f.renames.Fits taken M
  keeps : f.renames.preserves taken f.rest = true

theorem fits_ofCase (c : Case) : Fits [] Eq (ofCase c) where
  renames := Renaming.fits_nil
  keeps := by simp [ofCase, Renaming.preserves, Renaming.keeps]

theorem Fits.respects {taken : Names} {M : Matching} {f : Follower} (h : f.Fits taken M) :
    ∀ o ∈ Block.occurrences f.rest, f.renames.Respects M o :=
  fun o ho => h.renames.respects (List.all_eq_true.mp h.keeps o ho)

/-- The statement taken from a case matches the statement of the first case. -/
theorem Step.matches {taken : Names} {M : Matching} {s t : Stmt} {f g : Follower}
    (h : Step Stmt.alphaEq taken s t f g) (hf : f.Fits taken M) : t.Matches M s := by
  have hrenamed : t.Matches M (f.renames.stmt t) := by
    apply Renaming.matches_stmt
    -- The occurrences in `t` are the first of those that the renaming keeps.
    intro o ho
    apply hf.respects
    rw [h.rest, Block.occurrences_cons]
    exact List.mem_append_left _ ho
  have hequal : (f.renames.stmt t).Matches (Matching.swap Eq) s :=
    ((Stmt.alphaEq_iff s _).mp h.equal).symm
  refine (hrenamed.trans hequal).mono ?_
  rintro a c ⟨b, hab, hcb⟩
  exact hcb ▸ hab

/-- Behind a step, the renaming keeps every occurrence in what is left. -/
theorem Step.preserves_rest {equivalent : Equivalence} {taken : Names} {s t : Stmt}
    {f g : Follower} (h : Step equivalent taken s t f g)
    (hf : f.renames.preserves taken f.rest = true) :
    g.renames.preserves (taken ++ s.declared) g.rest = true := by
  -- Behind a declaration the step has checked what is left. Any other statement changes neither
  -- the renaming nor the names taken, so what held of the whole case holds of its rest.
  cases hs : s.isDeclaration with
  | true => exact h.preserved hs
  | false =>
      have ht : t.isDeclaration = false := h.form.trans hs
      have hrenames : g.renames = f.renames := by
        rw [h.renames, Stmt.declared_eq_nil ht, Stmt.declared_eq_nil hs]
        rfl
      have hrest : Block.occurrences f.rest = Block.occurrences [t] ++ g.rest.occurrences := by
        rw [h.rest, Block.occurrences_cons, Stmt.declared_eq_nil ht]
        rfl
      rw [Renaming.preserves, hrest, List.all_append, Bool.and_eq_true] at hf
      rw [hrenames, Stmt.declared_eq_nil hs, List.append_nil]
      exact hf.2

/-- A step keeps the invariant, behind the two statements it takes. -/
theorem Step.fits {taken : Names} {M : Matching} {s t : Stmt} {f g : Follower}
    (h : Step Stmt.alphaEq taken s t f g) (hf : f.Fits taken M) (hnodup : s.declared.Nodup)
    (hnew : ∀ x ∈ s.declared, x ∉ taken) :
    g.Fits (taken ++ s.declared) (M.bindAll t.declared s.declared) where
  renames := by
    rw [h.renames]
    exact hf.renames.insertAll t.declared h.arity hnodup hnew
  keeps := h.preserves_rest hf.keeps

/-- A run keeps the invariant: the statements taken from a case match those taken
from the first case, and what is left of the case fits behind them. -/
theorem Run.matches {taken : Names} {b : Block} {f g : Follower}
    (h : Run Stmt.alphaEq taken b f g) {ctx : PrefixContext} {M : Matching}
    (hf : f.Fits taken M) (hmay : ctx.MayAll taken b) (hnodup : ∀ s ∈ b, s.declared.Nodup) :
    g.value = f.value ∧ ∃ front, f.rest = front ++ g.rest ∧ Block.Matches M front b ∧
      g.Fits (taken ++ Block.declared b) (M.after front b) := by
  induction h generalizing M with
  | done => exact ⟨rfl, [], rfl, .nil, by simpa using hf⟩
  | step hstep _ ih =>
      obtain ⟨hmay, hmays⟩ := hmay
      rw [List.forall_mem_cons] at hnodup
      have hfits := hstep.fits hf hnodup.1 hmay.notTaken
      obtain ⟨hvalue, front, hrest, hfront, hlast⟩ := ih hfits hmays hnodup.2
      refine ⟨hvalue.trans hstep.value, _ :: front, ?_, .cons (hstep.matches hf) hfront, ?_⟩
      · rw [hstep.rest, hrest, List.cons_append]
      · rw [Matching.after_cons hstep.arity, Block.declared_cons, ← List.append_assoc]
        exact hlast

end Follower

/-- A case and what is left of it behind a prefix: the case starts with statements
that match the prefix, and behind them the rest of the case matches what is left. -/
structure Case.LeftBehind (front : Block) (c c' : Case) : Prop where
  value : c'.value = c.value
  body : ∃ own rest, c.body = own ++ rest ∧ Block.Matches Eq own front ∧
    Block.Matches (Matching.after Eq own front) rest c'.body

theorem Matching.bind_eq (x : String) : Matching.bind Eq x x = Eq := by
  funext a b
  simp only [Matching.bind, eq_iff_iff]
  grind

theorem Matching.bindAll_eq (xs : List String) : Matching.bindAll Eq xs xs = Eq := by
  induction xs with
  | nil => rfl
  | cons x xs ih => rw [Matching.bindAll, Matching.bind_eq, ih]

theorem Block.matches_refl (b : Block) : Block.Matches Eq b b :=
  Block.matches_self fun _ _ => rfl

/-- The whole case matches the prefix followed by what is left. -/
theorem Case.LeftBehind.matches {front : Block} {c c' : Case} (h : c.LeftBehind front c') :
    Block.Matches Eq c.body (front ++ c'.body) := by
  obtain ⟨own, rest, hbody, hown, hrest⟩ := h.body
  rw [hbody]
  exact hown.append hrest

/-- Every case, the first included, is left behind the prefix that was taken. -/
theorem hoistPrefix_leftBehind {live : Names} {scrutinee : Expr} {cases cases' : List Case}
    {hoisted : Block} (h : hoistPrefix Stmt.alphaEq live scrutinee cases = .ok (hoisted, cases'))
    (hnodup : ∀ c ∈ cases, ∀ s ∈ c.body, s.declared.Nodup) :
    List.Forall₂ (Case.LeftBehind hoisted) cases cases' := by
  obtain ⟨first, others, rest, followers, rfl, hfirst, rfl, hmay, hruns⟩ := hoistPrefix_eq_ok h
  have hnodup' : ∀ s ∈ hoisted, s.declared.Nodup := by
    intro s hs
    exact hnodup first (List.mem_cons_self ..) s (hfirst ▸ List.mem_append_left _ hs)
  -- The first case gives up the prefix itself, each other case one that matches it.
  refine .cons ⟨rfl, hoisted, rest, hfirst, Block.matches_refl hoisted, ?_⟩ ?_
  · rw [Matching.after, Matching.bindAll_eq]
    exact Block.matches_refl rest
  · rw [List.forall₂_map_right_iff]
    refine hruns.imp fun c g hrun => ?_
    obtain ⟨hvalue, front, hrest, hfront, hfits⟩ :=
      hrun.matches (Follower.fits_ofCase c) hmay hnodup'
    exact ⟨hvalue, front, g.rest, hrest, hfront, Renaming.matches_stmts hfits.respects⟩

theorem Stmt.Matches.isDeclaration_eq {M : Matching} {s t : Stmt} (h : s.Matches M t) :
    t.isDeclaration = s.isDeclaration := by
  cases h <;> rfl

/-- Equality up to declared names is never at fault. -/
theorem Stmt.alphaEq_faithful : Equivalence.Faithful Stmt.alphaEq := by
  intro s t hst
  have hmatches := (Stmt.alphaEq_iff s t).mp hst
  exact ⟨hmatches.isDeclaration_eq, hmatches.length_declared.symm⟩

theorem Block.mem_subtrees {b : Block} {s : Stmt} (h : s ∈ b) : s ∈ Block.subtrees b := by
  induction b with
  | nil => cases h
  | cons t rest ih =>
      rw [Block.subtrees, List.mem_append]
      rcases List.mem_cons.mp h with rfl | h
      · exact Or.inl s.mem_subtree_self
      · exact Or.inr (ih h)

theorem Case.mem_subtrees {cases : List Case} {c : Case} (hc : c ∈ cases) {s : Stmt}
    (h : s ∈ Block.subtrees c.body) : s ∈ Case.subtrees cases := by
  induction cases with
  | nil => cases hc
  | cons d rest ih =>
      obtain ⟨value, body⟩ := d
      rw [Case.subtrees, List.mem_append]
      rcases List.mem_cons.mp hc with rfl | hc
      · exact Or.inl h
      · exact Or.inr (ih hc)

/-- Taking the prefix of a switch keeps its scrutinee and the values of its cases, and
behind the prefix every case is what it was up to the names it declares. -/
theorem hoistPrefix_keeps_cases (live : Names) (scrutinee : Expr) (cases : List Case)
    (hcases : cases ≠ [])
    (hdistinct : ∀ s ∈ (Stmt.switch scrutinee cases).subtree, s.declared.Nodup) :
    ∃ hoisted cases',
      hoistPrefix Stmt.alphaEq live scrutinee cases = .ok (hoisted, cases') ∧
      (Stmt.switch scrutinee cases).hoistOut Stmt.alphaEq [] live =
        .ok (hoisted ++ [.switch scrutinee cases']) ∧
      List.Forall₂ (fun c c' => c'.value = c.value ∧
        (Stmt.block c.body).alphaEq (.block (hoisted ++ c'.body)) = true) cases cases' := by
  obtain ⟨hoisted, cases', h⟩ := exists_hoistPrefix Stmt.alphaEq_faithful live scrutinee hcases
  have hnodup : ∀ c ∈ cases, ∀ s ∈ c.body, s.declared.Nodup := by
    intro c hc s hs
    apply hdistinct
    rw [Stmt.subtree]
    exact List.mem_cons_of_mem _ (Case.mem_subtrees hc (Block.mem_subtrees hs))
  refine ⟨hoisted, cases', h, ?_, (hoistPrefix_leftBehind h hnodup).imp fun c c' hleft => ?_⟩
  · have hlive : Block.freeNames [] ++ live = live := rfl
    rw [Stmt.hoistOut, hlive, h]
    rfl
  · exact ⟨hleft.value, (Stmt.alphaEq_iff _ _).mpr (.block hleft.matches)⟩

/-- Two cases that declare the same two names the other way round. -/
def swappedCases : List Case :=
  [⟨some ⟨.number, "0", none⟩, [.declareUntyped ["a", "b"] none, .assign ["a"] (.variable "b")]⟩,
    ⟨none, [.declareUntyped ["b", "a"] none, .assign ["b"] (.variable "a"), .continue]⟩]

theorem hoistPrefix_keeps_swappedCases :
    swappedCases ≠ [] ∧
    (∀ s ∈ (Stmt.switch (.variable "x") swappedCases).subtree, s.declared.Nodup) ∧
    ∃ hoisted cases',
      hoistPrefix Stmt.alphaEq ["c"] (.variable "x") swappedCases = .ok (hoisted, cases') ∧
      (Stmt.switch (.variable "x") swappedCases).hoistOut Stmt.alphaEq [] ["c"] =
        .ok (hoisted ++ [.switch (.variable "x") cases']) ∧
      List.Forall₂ (fun c c' => c'.value = c.value ∧
        (Stmt.block c.body).alphaEq (.block (hoisted ++ c'.body)) = true) swappedCases cases' := by
  have hcases : swappedCases ≠ [] := by decide
  have hdistinct : ∀ s ∈ (Stmt.switch (.variable "x") swappedCases).subtree, s.declared.Nodup := by
    simp [swappedCases, Stmt.subtree, Case.subtrees, Block.subtrees, Stmt.declared,
      Stmt.declareUntyped, TypedName.names, TypedName.untyped]
  exact ⟨hcases, hdistinct,
    hoistPrefix_keeps_cases ["c"] (.variable "x") swappedCases hcases hdistinct⟩

end SwitchHoist
