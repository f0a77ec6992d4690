import Mathlib.Computability.Language
import Mathlib.Data.Char
import Mathlib.Data.List.Chain
import SwitchHoist.Proofs.Pieces

/-!
# The patterns of tokens

The kinds of tokens and the texts to skip are given by patterns, which are languages over
characters.  `Token.Kind.mem_pattern_iff` and `Skip.mem_blockComment_iff` say what their texts look
like.

The language of block comments takes runs of stars and runs of other characters in turn, and a
slash ends it only behind a star.  So its texts are those that end with the first `*/`, however
many stars and slashes stand in front of it.
-/

namespace SwitchHoist

open scoped Computability

/-! ## Patterns -/

namespace Pattern

/-- One character of a class. -/
def oneOf (s : Set Char) : Language Char :=
  {w | ∃ c ∈ s, w = [c]}

/-- A fixed text. -/
def exactly (s : String) : Language Char :=
  {s.toList}

/-- One text or more of a language, one behind the other. -/
def many (l : Language Char) : Language Char :=
  l * l∗

def digit : Set Char :=
  Set.Icc '0' '9'

def hexDigit : Set Char :=
  Set.Icc '0' '9' ∪ Set.Icc 'a' 'f' ∪ Set.Icc 'A' 'F'

def letter : Set Char :=
  Set.Icc 'a' 'z' ∪ Set.Icc 'A' 'Z'

def blank : Set Char :=
  {' ', '\t', '\r', '\n', '\x0c'}

end Pattern

open Pattern

/-- The texts that are a token of a kind.  A string holds any characters but quotes, backslashes
and line ends, and any character but a line end behind a backslash. -/
def Token.Kind.pattern : Token.Kind → Language Char
  | .keyword k => exactly k.text
  | .mark m => exactly m.text
  | .number => exactly "0x" * many (oneOf hexDigit) + many (oneOf digit)
  | .string =>
      exactly "\"" * (oneOf {'"', '\\', '\n'}ᶜ + exactly "\\" * oneOf {'\n'}ᶜ)∗ * exactly "\""
  | .identifier =>
      oneOf (letter ∪ {'_', '$'}) * (oneOf (letter ∪ digit ∪ {'_', '$', '.'}))∗

/-- What may be skipped between tokens. -/
inductive Skip where
  | blanks
  | lineComment
  | blockComment
  deriving DecidableEq, Repr

/-- The texts that are skipped. -/
def Skip.pattern : Skip → Language Char
  | blanks => many (oneOf blank)
  | lineComment => exactly "//" * (oneOf {'\n'}ᶜ)∗
  | blockComment =>
      exactly "/*" * (oneOf {'*'}ᶜ)∗ * many (exactly "*") *
        (oneOf {'*', '/'}ᶜ * (oneOf {'*'}ᶜ)∗ * many (exactly "*"))∗ * exactly "/"

/-! ## Texts in a pattern -/

namespace Pattern

variable {l : Language Char} {s : Set Char} {w : List Char}

theorem mem_oneOf : w ∈ oneOf s ↔ ∃ c ∈ s, w = [c] :=
  Iff.rfl

theorem mem_exactly {t : String} : w ∈ exactly t ↔ w = t.toList :=
  Iff.rfl

theorem mem_exactly_mul {t : String} : w ∈ exactly t * l ↔ ∃ v ∈ l, w = t.toList ++ v := by
  simp [Language.mem_mul, mem_exactly, eq_comm]

theorem mem_mul_exactly {t : String} : w ∈ l * exactly t ↔ ∃ v ∈ l, w = v ++ t.toList := by
  simp [Language.mem_mul, mem_exactly, eq_comm]

theorem mem_oneOf_mul : w ∈ oneOf s * l ↔ ∃ c v, c ∈ s ∧ v ∈ l ∧ w = c :: v := by
  rw [Language.mem_mul]
  constructor
  · rintro ⟨-, ⟨c, hc, rfl⟩, v, hv, rfl⟩
    exact ⟨c, v, hc, hv, rfl⟩
  · rintro ⟨c, v, hc, hv, rfl⟩
    exact ⟨[c], ⟨c, hc, rfl⟩, v, hv, rfl⟩

theorem append_mem_kstar {u v : List Char} (hu : u ∈ l) (hv : v ∈ l∗) : u ++ v ∈ l∗ := by
  obtain ⟨ws, rfl, hws⟩ := hv
  exact ⟨u :: ws, rfl, List.forall_mem_cons.mpr ⟨hu, hws⟩⟩

/-- What holds of the empty text, and behind each text of a language if it holds before, holds of
all repetitions. -/
theorem kstar_induction {P : List Char → Prop} (hnil : P [])
    (happend : ∀ u v, u ∈ l → v ∈ l∗ → P v → P (u ++ v)) (h : w ∈ l∗) : P w := by
  obtain ⟨ws, rfl, hws⟩ := h
  induction ws with
  | nil => exact hnil
  | cons u ws ih =>
      rw [List.forall_mem_cons] at hws
      exact happend u ws.flatten hws.1 (Language.join_mem_kstar hws.2) (ih hws.2)

theorem mem_kstar_oneOf : w ∈ (oneOf s)∗ ↔ ∀ c ∈ w, c ∈ s := by
  constructor
  · refine kstar_induction (P := fun w => ∀ c ∈ w, c ∈ s) (fun _ hc => nomatch hc) ?_
    rintro - v ⟨c, hc, rfl⟩ - hv
    exact List.forall_mem_cons.mpr ⟨hc, hv⟩
  · intro h
    induction w with
    | nil => exact Language.nil_mem_kstar _
    | cons c w ih =>
        rw [List.forall_mem_cons] at h
        exact append_mem_kstar (u := [c]) ⟨c, h.1, rfl⟩ (ih h.2)

theorem mem_many_oneOf : w ∈ many (oneOf s) ↔ w ≠ [] ∧ ∀ c ∈ w, c ∈ s := by
  rw [many, mem_oneOf_mul]
  constructor
  · rintro ⟨c, v, hc, hv, rfl⟩
    exact ⟨List.cons_ne_nil c v, List.forall_mem_cons.mpr ⟨hc, mem_kstar_oneOf.mp hv⟩⟩
  · rintro ⟨hne, hw⟩
    obtain ⟨c, v, rfl⟩ := List.exists_cons_of_ne_nil hne
    rw [List.forall_mem_cons] at hw
    exact ⟨c, v, hw.1, mem_kstar_oneOf.mpr hw.2, rfl⟩

/-- A text of one character is a class of one character. -/
theorem exactly_eq_oneOf (c : Char) : exactly (String.singleton c) = oneOf {c} := by
  ext w
  simp [mem_exactly, mem_oneOf]

end Pattern

/-! ## Classes of characters -/

theorem mem_digit_iff {c : Char} : c ∈ digit ↔ c.isDigit = true := by
  exact (Bool.and_eq_true_iff.trans (and_congr decide_eq_true_iff decide_eq_true_iff)).symm

theorem mem_blank_iff {c : Char} : c ∈ blank ↔ isBlank c = true := by
  simp [blank, isBlank, or_assoc]

theorem mem_hexDigit_iff {c : Char} : c ∈ hexDigit ↔ isHexDigit c = true := by
  have hdigit : c ∈ Set.Icc '0' '9' ↔ c.isDigit = true := mem_digit_iff
  simp only [hexDigit, Set.mem_union, hdigit, Set.mem_Icc, isHexDigit, digitValue?]
  grind

theorem mem_letter_iff {c : Char} : c ∈ letter ↔ c.isAlpha = true := by
  have hlower : c ∈ Set.Icc 'a' 'z' ↔ c.isLower = true :=
    (Bool.and_eq_true_iff.trans (and_congr decide_eq_true_iff decide_eq_true_iff)).symm
  have hupper : c ∈ Set.Icc 'A' 'Z' ↔ c.isUpper = true := decide_eq_true_iff.symm
  rw [letter, Set.mem_union, hlower, hupper, or_comm]
  exact Bool.or_eq_true_iff.symm

/-! ## What tokens look like -/

/-- The language of what stands between the quotes of a string. -/
theorem mem_kstar_stringElement_iff {v : List Char} :
    v ∈ (oneOf {'"', '\\', '\n'}ᶜ + exactly "\\" * oneOf {'\n'}ᶜ)∗ ↔
      (stringElements v).2 = [] := by
  constructor
  · refine kstar_induction (P := fun v => (stringElements v).2 = []) rfl ?_
    rintro u v hu - hv
    rw [Language.mem_add, mem_exactly_mul] at hu
    rcases hu with ⟨c, hc, rfl⟩ | ⟨-, ⟨c, hc, rfl⟩, rfl⟩
    · simp only [Set.mem_compl_iff, Set.mem_insert_iff, Set.mem_singleton_iff, not_or] at hc
      simp [stringElements, hc, hv]
    · have hc : c ≠ '\n' := hc
      simp [stringElements, hc, hv]
  · intro h
    fun_induction stringElements v with
    | case1 => cases h
    | case2 c rest hc ih =>
        refine append_mem_kstar (u := ['\\', c]) (Or.inr ?_) (ih h)
        exact mem_exactly_mul.mpr ⟨[c], ⟨c, hc, rfl⟩, rfl⟩
    | case3 => cases h
    | case4 c rest _ hc ih =>
        refine append_mem_kstar (u := [c]) (Or.inl ⟨c, ?_, rfl⟩) (ih h)
        simpa using hc
    | case5 => exact Language.nil_mem_kstar _

theorem mem_identifier_iff {w : List Char} :
    w ∈ Token.Kind.identifier.pattern ↔ isIdentifier (String.ofList w) = true := by
  have hstart : ∀ c, c ∈ letter ∪ {'_', '$'} ↔ isIdentStart c = true := by
    intro c
    simp only [Set.mem_union, Set.mem_insert_iff, Set.mem_singleton_iff, mem_letter_iff,
      isIdentStart, Bool.or_eq_true, beq_iff_eq, or_assoc]
  have hpart : ∀ c, c ∈ letter ∪ digit ∪ {'_', '$', '.'} ↔ isIdentPart c = true := by
    intro c
    simp only [Set.mem_union, Set.mem_insert_iff, Set.mem_singleton_iff, mem_letter_iff,
      mem_digit_iff, isIdentPart, Char.isAlphanum, Bool.or_eq_true, beq_iff_eq, or_assoc]
  rw [Token.Kind.pattern, mem_oneOf_mul]
  simp only [mem_kstar_oneOf, hstart, hpart]
  cases w with
  | nil => simp [isIdentifier]
  | cons c w => simp [isIdentifier]

/-- A text is in the pattern of a kind exactly if the kind stands for it. -/
theorem Token.Kind.mem_pattern_iff {k : Token.Kind} {w : List Char} :
    w ∈ k.pattern ↔ k.Matches w := by
  cases k with
  | keyword key => exact Iff.rfl
  | mark m => exact Iff.rfl
  | number =>
      rw [pattern, Language.mem_add, mem_exactly_mul, or_comm]
      simp only [mem_many_oneOf, mem_digit_iff, mem_hexDigit_iff, Matches, List.all_eq_true]
      refine or_congr_right (exists_congr fun ds => ?_)
      rw [and_comm]
      rfl
  | string =>
      simp only [pattern, mem_mul_exactly, mem_exactly_mul, mem_kstar_stringElement_iff, Matches]
      constructor
      · rintro ⟨-, ⟨v, hv, rfl⟩, rfl⟩
        exact ⟨v, rfl, hv⟩
      · rintro ⟨v, rfl, hv⟩
        exact ⟨_, ⟨v, hv, rfl⟩, rfl⟩
  | identifier => exact mem_identifier_iff

/-! ## What block comments look like -/

/-- The text of a block comment: with `*/` behind it, this is the first `*/`. -/
def IsCommentText (body : List Char) : Prop :=
  ¬['*', '/'] <:+: body ++ ['*']

/-- Characters that may follow each other in front of the first `*/`. -/
def Unfinished (c d : Char) : Prop :=
  ¬(c = '*' ∧ d = '/')

theorem isCommentText_iff {body : List Char} :
    IsCommentText body ↔ (body ++ ['*']).IsChain Unfinished := by
  rw [IsCommentText, List.isChain_iff_forall_rel_of_append_cons_cons]
  constructor
  · rintro h c d front rest heq ⟨rfl, rfl⟩
    exact h ⟨front, rest, by simp [heq]⟩
  · rintro h ⟨front, rest, heq⟩
    exact h (by simpa using heq.symm) ⟨rfl, rfl⟩

/-- A comment goes up to the first `*/`, and only a text without one is no comment. -/
theorem commentBody?_eq_some_iff {cs text rest : List Char} :
    commentBody? cs = some (text, rest) ↔
      ∃ body, IsCommentText body ∧ text = body ++ ['*', '/'] ∧ cs = text ++ rest := by
  simp only [isCommentText_iff]
  constructor
  · intro h
    fun_induction commentBody? cs generalizing text rest with
    | case1 tail =>
        cases h
        exact ⟨[], .singleton _, rfl, rfl⟩
    | case2 c tail hopen ih =>
        obtain ⟨⟨text', rest'⟩, htail, heq⟩ := Option.map_eq_some_iff.mp h
        cases heq
        obtain ⟨body, hbody, rfl, rfl⟩ := ih htail
        refine ⟨c :: body, List.isChain_cons.mpr ⟨?_, hbody⟩, rfl, rfl⟩
        -- The first `*/` does not start here, so `c` may stand in front of what follows.
        rintro d hd ⟨rfl, rfl⟩
        cases body with
        | nil => cases hd
        | cons d' body =>
            cases hd
            exact hopen _ rfl rfl
    | case3 => cases h
  · rintro ⟨body, hbody, rfl, rfl⟩
    induction body with
    | nil => rfl
    | cons c body ih =>
        obtain ⟨hnext, hbody⟩ := List.isChain_cons.mp hbody
        rw [List.cons_append, List.cons_append, commentBody?, ih hbody]
        · rfl
        · rintro tail rfl heq
          cases body with
          | nil => cases heq
          | cons d body =>
              cases heq
              exact hnext '/' rfl ⟨rfl, rfl⟩

/-- A comment without text ends at once, and the next one starts behind it. -/
example : commentBody? "*//***/".toList = some ("*/".toList, "/***/".toList) := by
  decide

namespace Pattern

/-- Characters that are no stars, and then stars. -/
def starRun : Language Char :=
  (oneOf {'*'}ᶜ)∗ * many (exactly "*")

/-- A block comment between `/*` and the slash at its end. -/
def starRuns : Language Char :=
  starRun * (oneOf {'*', '/'}ᶜ * starRun)∗

variable {w : List Char}

theorem mem_starRun_iff :
    w ∈ starRun ↔ ∃ others stars, (∀ c ∈ others, c ≠ '*') ∧ stars ≠ [] ∧ (∀ c ∈ stars, c = '*') ∧
      w = others ++ stars := by
  have hstar : exactly "*" = oneOf {'*'} := exactly_eq_oneOf '*'
  rw [starRun, hstar, Language.mem_mul]
  constructor
  · rintro ⟨others, hothers, stars, hstars, rfl⟩
    obtain ⟨hne, hstars⟩ := mem_many_oneOf.mp hstars
    exact ⟨others, stars, mem_kstar_oneOf.mp hothers, hne, hstars, rfl⟩
  · rintro ⟨others, stars, hothers, hne, hstars, rfl⟩
    exact ⟨others, mem_kstar_oneOf.mpr hothers, stars, mem_many_oneOf.mpr ⟨hne, hstars⟩, rfl⟩

/-- A run ends with a star, and no slash follows a star in it. -/
theorem isChain_of_mem_starRun (h : w ∈ starRun) :
    w.IsChain Unfinished ∧ w.getLast? = some '*' := by
  obtain ⟨others, stars, hothers, hne, hstars, rfl⟩ := mem_starRun_iff.mp h
  constructor
  · apply List.Pairwise.isChain
    rw [List.pairwise_append]
    refine ⟨List.pairwise_of_forall_mem_list ?_, List.pairwise_of_forall_mem_list ?_, ?_⟩
    · rintro c hc d - ⟨rfl, -⟩
      exact hothers _ hc rfl
    · rintro c - d hd ⟨-, rfl⟩
      cases hstars _ hd
    · rintro c hc d - ⟨rfl, -⟩
      exact hothers _ hc rfl
  · have hlast := hstars _ (List.getLast_mem hne)
    rw [List.getLast?_append, List.getLast?_eq_some_getLast hne, hlast]
    rfl

/-- Runs that follow a run do not start with a slash, and with them a text still ends with a
star. -/
theorem isChain_of_mem_kstar (h : w ∈ (oneOf {'*', '/'}ᶜ * starRun)∗) :
    w.IsChain Unfinished ∧ (∀ d ∈ w.head?, d ≠ '/') ∧ w.getLast?.or (some '*') = some '*' := by
  refine kstar_induction (P := fun w => w.IsChain Unfinished ∧ (∀ d ∈ w.head?, d ≠ '/') ∧
    w.getLast?.or (some '*') = some '*') ⟨.nil, nofun, rfl⟩ ?_ h
  rintro u v hu - ⟨hv, hhead, hlast⟩
  obtain ⟨c, run, hc, hrun, rfl⟩ := mem_oneOf_mul.mp hu
  obtain ⟨hchain, hend⟩ := isChain_of_mem_starRun hrun
  simp only [Set.mem_compl_iff, Set.mem_insert_iff, Set.mem_singleton_iff, not_or] at hc
  refine ⟨?_, ?_, ?_⟩
  · rw [List.cons_append, List.isChain_cons, List.isChain_append]
    exact ⟨fun d _ hcd => hc.1 hcd.1, hchain, hv, fun x _ y hy hxy => hhead y hy hxy.2⟩
  · rintro d hd rfl
    cases hd
    exact hc.2 rfl
  · rw [List.getLast?_append, List.getLast?_cons, hend, Option.or_assoc]
    exact hlast

/-- A character in front of runs goes with them unless it is the star in front of a slash. -/
theorem cons_mem_starRuns {c : Char} (h : w ∈ starRuns) (hc : ∀ d ∈ w.head?, Unfinished c d) :
    c :: w ∈ starRuns := by
  obtain ⟨u, hu, v, hv, rfl⟩ := Language.mem_mul.mp h
  obtain ⟨others, stars, hothers, hne, hstars, rfl⟩ := mem_starRun_iff.mp hu
  by_cases hstar : c = '*'
  · cases others with
    -- One star more in front of stars.
    | nil =>
        have hrun : c :: stars ∈ starRun := mem_starRun_iff.mpr
          ⟨[], c :: stars, nofun, List.cons_ne_nil _ _, List.forall_mem_cons.mpr ⟨hstar, hstars⟩,
            rfl⟩
        exact ⟨c :: stars, hrun, v, hv, rfl⟩
    -- The star is a run of its own, and what was the first run follows it.
    | cons d others =>
        have hrun : [c] ∈ starRun := mem_starRun_iff.mpr
          ⟨[], [c], nofun, List.cons_ne_nil _ _, List.forall_mem_singleton.mpr hstar, rfl⟩
        rw [List.forall_mem_cons] at hothers
        have hd : d ∉ ({'*', '/'} : Set Char) := by
          rintro (rfl | rfl)
          · exact hothers.1 rfl
          · exact hc '/' rfl ⟨hstar, rfl⟩
        have hnext : d :: (others ++ stars) ∈ oneOf {'*', '/'}ᶜ * starRun :=
          mem_oneOf_mul.mpr ⟨d, others ++ stars, hd,
            mem_starRun_iff.mpr ⟨others, stars, hothers.2, hne, hstars, rfl⟩, rfl⟩
        exact ⟨[c], hrun, _, append_mem_kstar hnext hv, rfl⟩
  · have hrun : c :: others ++ stars ∈ starRun := mem_starRun_iff.mpr
      ⟨c :: others, stars, List.forall_mem_cons.mpr ⟨hstar, hothers⟩, hne, hstars, rfl⟩
    exact ⟨c :: others ++ stars, hrun, v, hv, rfl⟩

/-- Runs are what stands in front of the slash of the first `*/`. -/
theorem mem_starRuns_iff : w ∈ starRuns ↔ ∃ body, IsCommentText body ∧ w = body ++ ['*'] := by
  simp only [isCommentText_iff]
  constructor
  · intro h
    obtain ⟨u, hu, v, hv, rfl⟩ := Language.mem_mul.mp h
    obtain ⟨hchain, hend⟩ := isChain_of_mem_starRun hu
    obtain ⟨hv, hhead, hlast⟩ := isChain_of_mem_kstar hv
    have hlast : (u ++ v).getLast? = some '*' := by
      rw [List.getLast?_append, hend]
      exact hlast
    obtain ⟨body, hbody⟩ := List.getLast?_eq_some_iff.mp hlast
    refine ⟨body, ?_, hbody⟩
    rw [← hbody, List.isChain_append]
    exact ⟨hchain, hv, fun x _ y hy hxy => hhead y hy hxy.2⟩
  · rintro ⟨body, hbody, rfl⟩
    induction body with
    | nil =>
        have hrun : ['*'] ∈ starRun := mem_starRun_iff.mpr
          ⟨[], ['*'], nofun, List.cons_ne_nil _ _, List.forall_mem_singleton.mpr rfl, rfl⟩
        exact ⟨['*'], hrun, [], Language.nil_mem_kstar _, rfl⟩
    | cons c body ih =>
        obtain ⟨hnext, hbody⟩ := List.isChain_cons.mp hbody
        exact cons_mem_starRuns (ih hbody) hnext

end Pattern

/-- A block comment goes from `/*` to the first `*/` behind it. -/
theorem Skip.mem_blockComment_iff {w : List Char} :
    w ∈ blockComment.pattern ↔
      ∃ body, IsCommentText body ∧ w = '/' :: '*' :: body ++ ['*', '/'] := by
  have hpattern : blockComment.pattern = exactly "/*" * (starRuns * exactly "/") := by
    simp only [pattern, starRuns, starRun, mul_assoc]
  simp only [hpattern, mem_exactly_mul, mem_mul_exactly, mem_starRuns_iff]
  constructor
  · rintro ⟨-, ⟨-, ⟨body, hbody, rfl⟩, rfl⟩, rfl⟩
    exact ⟨body, hbody, by simp⟩
  · rintro ⟨body, hbody, rfl⟩
    exact ⟨_, ⟨_, ⟨body, hbody, rfl⟩, rfl⟩, by simp⟩

end SwitchHoist
