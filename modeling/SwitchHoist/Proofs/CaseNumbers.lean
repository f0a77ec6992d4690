import Mathlib.Data.List.Enum
import Mathlib.Data.Nat.Digits.Defs
import Mathlib.Tactic.Ring
import SwitchHoist.Proofs.PrintableTrees
import SwitchHoist.Proofs.ProgramRules

/-!
# Case values that denote the same number

Numbers are written in decimal or behind `0x` in hexadecimal, with any number of leading zeros
and with hexadecimal letters of either case.  The rules for a switch compare the values of its
cases by their keys, and the key of a number below 2^128 is this number.  From there on a number
stands for its own spelling: two spellings of one such number are not taken for the same case.
-/

namespace SwitchHoist

/-- What a digit counts, as its place in the row of all digits. -/
def digitRank (c : Char) : Nat :=
  "0123456789abcdef".toList.idxOf c.toLower

/-- The number that a numeral denotes: hexadecimal behind `0x`, and decimal otherwise. -/
def denoted (numeral : String) : Nat :=
  match numeral.toList with
  | '0' :: 'x' :: digits => Nat.ofDigits 16 (digits.reverse.map digitRank)
  | digits => Nat.ofDigits 10 (digits.reverse.map digitRank)

/-! ## Reading numerals -/

/-- What holds of the characters below a bound can be tried out. -/
theorem forall_char_lt {P : Char → Prop} {bound : Nat} (h : ∀ n < bound, P (Char.ofNat n))
    {c : Char} (hc : c.toNat < bound) : P c := by
  have hn := h c.toNat hc
  rwa [Char.ofNat_toNat] at hn

theorem toNat_lt_of_isDigit {c : Char} (h : c.isDigit = true) : c.toNat < 58 := by
  simp only [Char.isDigit, Bool.and_eq_true, decide_eq_true_eq, UInt32.le_iff_toNat_le] at h
  exact Nat.lt_succ_of_le h.2

theorem toNat_lt_of_isHexDigit {c : Char} (h : isHexDigit c = true) : c.toNat < 103 := by
  unfold isHexDigit digitValue? at h
  split at h
  · next hdigit => exact Nat.lt_trans (toNat_lt_of_isDigit hdigit) (by decide)
  · split at h
    · next hlower => exact Nat.lt_succ_of_le hlower.2
    · split at h
      · next hupper => exact Nat.lt_of_le_of_lt hupper.2 (by decide)
      · cases h

theorem digitValue?_of_isDigit {c : Char} (h : c.isDigit = true) :
    digitValue? c = some (digitRank c) ∧ digitRank c < 10 :=
  forall_char_lt (P := fun c => c.isDigit = true → digitValue? c = some (digitRank c) ∧
    digitRank c < 10) (by decide) (toNat_lt_of_isDigit h) h

theorem digitValue?_of_isHexDigit {c : Char} (h : isHexDigit c = true) :
    digitValue? c = some (digitRank c) ∧ digitRank c < 16 :=
  forall_char_lt (P := fun c => isHexDigit c = true → digitValue? c = some (digitRank c) ∧
    digitRank c < 16) (by decide) (toNat_lt_of_isHexDigit h) h

/-- Digits of a base are read as the number that they denote in this base. -/
theorem digitsFrom?_eq_ofDigits {base : Nat} {cs : List Char}
    (h : ∀ c ∈ cs, digitValue? c = some (digitRank c) ∧ digitRank c < base) (high : Nat) :
    digitsFrom? base high cs =
      some (high * base ^ cs.length + Nat.ofDigits base (cs.reverse.map digitRank)) := by
  induction cs generalizing high with
  | nil => simp [digitsFrom?]
  | cons c rest ih =>
      rw [List.forall_mem_cons] at h
      obtain ⟨⟨hvalue, hlt⟩, hrest⟩ := h
      rw [digitsFrom?, hvalue]
      simp only [hlt, if_true]
      rw [ih hrest, List.reverse_cons, List.map_append, Nat.ofDigits_append]
      simp only [List.map_singleton, Nat.ofDigits_singleton, List.length_map, List.length_reverse,
        List.length_cons]
      congr 1
      ring

theorem numeral?_eq_ofDigits {base : Nat} {cs : List Char} (hne : cs ≠ [])
    (h : ∀ c ∈ cs, digitValue? c = some (digitRank c) ∧ digitRank c < base) :
    numeral? base cs = some (Nat.ofDigits base (cs.reverse.map digitRank)) := by
  have hsign : numeral? base cs = digits? base cs := by
    unfold numeral?
    split
    · -- No digit is a plus sign.
      exact absurd (h '+' (List.mem_cons_self ..)).1 (by decide)
    · rfl
  rw [hsign, digits?, List.isEmpty_eq_false_iff.mpr hne, if_neg Bool.false_ne_true,
    digitsFrom?_eq_ofDigits h 0, Nat.zero_mul, Nat.zero_add]

/-- The text of a number token is read as the number that it denotes. -/
theorem numberValue?_eq_denoted {text : String}
    (h : Token.Kind.Matches .number text.toList) : numberValue? text = some (denoted text) := by
  rcases h with ⟨hne, hdigits⟩ | ⟨ds, htext, hne, hdigits⟩
  · have hcs := List.all_eq_true.mp hdigits
    -- Decimal digits are not taken for hexadecimal ones, by the reading nor by the meaning.
    have hdecimal : ∀ ds, text.toList ≠ '0' :: 'x' :: ds :=
      fun ds heq => absurd (hcs 'x' (by simp [heq])) (by decide)
    have hread : numberValue? text = numeral? 10 text.toList := by
      unfold numberValue?
      split
      · next heq => exact absurd heq (hdecimal _)
      · rfl
    have hmeans : denoted text = Nat.ofDigits 10 (text.toList.reverse.map digitRank) := by
      unfold denoted
      split
      · next heq => exact absurd heq (hdecimal _)
      · rfl
    rw [hread, hmeans]
    exact numeral?_eq_ofDigits hne fun c hc => digitValue?_of_isDigit (hcs c hc)
  · rw [numberValue?, denoted, htext]
    exact numeral?_eq_ofDigits hne fun c hc =>
      digitValue?_of_isHexDigit (List.all_eq_true.mp hdigits c hc)

/-! ## Keys -/

/-- Two literals of one kind that are spelled alike, or two numbers that are the same and stay
below the bound of the keys. -/
def Literal.SameCase (l m : Literal) : Prop :=
  l.kind = m.kind ∧ (l.value = m.value ∨
    l.kind = .number ∧ denoted l.value = denoted m.value ∧ denoted l.value < numberBound)

instance (l m : Literal) : Decidable (l.SameCase m) :=
  inferInstanceAs (Decidable (_ ∧ _))

/-- A number is one number token. -/
def Literal.IsNumeral (l : Literal) : Prop :=
  l.kind = .number → l.IsSpelled

theorem Literal.caseKey_number {l : Literal} (hkind : l.kind = .number) (hl : l.IsSpelled) :
    l.caseKey = if denoted l.value < numberBound then .number (denoted l.value)
      else .spelled .number l.value := by
  have hmatches : Token.Kind.Matches .number l.value.toList := by
    obtain ⟨kind, value, typ⟩ := l
    obtain rfl : kind = .number := hkind
    exact (Literal.isSpelled_iff.mp hl).matches
  rw [caseKey, hkind]
  simp only [numberValue?_eq_denoted hmatches]

theorem Literal.caseKey_of_kind_ne {l : Literal} (hkind : l.kind ≠ .number) :
    l.caseKey = .spelled l.kind l.value := by
  unfold caseKey
  split
  · next h => exact absurd h hkind
  · rfl

/-- Two literals have the same key if and only if they are the same case. -/
theorem Literal.caseKey_eq_iff {l m : Literal} (hl : l.IsNumeral) (hm : m.IsNumeral) :
    l.caseKey = m.caseKey ↔ l.SameCase m := by
  unfold SameCase
  by_cases hlk : l.kind = .number
  · by_cases hmk : m.kind = .number
    · -- A number below the bound and one from the bound on have keys of different sorts.
      rw [caseKey_number hlk (hl hlk), caseKey_number hmk (hm hmk)]
      split <;> split <;> grind
    · rw [caseKey_number hlk (hl hlk), caseKey_of_kind_ne hmk]
      split <;> grind
  · by_cases hmk : m.kind = .number
    · rw [caseKey_of_kind_ne hlk, caseKey_number hmk (hm hmk)]
      split <;> grind
    · rw [caseKey_of_kind_ne hlk, caseKey_of_kind_ne hmk, CaseKey.spelled.injEq]
      simp [hlk]

/-! ## Reports -/

/-- The items that are equal to an earlier one under a key are those with this key in front of
them. -/
theorem repeatsBy_eq_filter {α β : Type} [DecidableEq β] (key : α → β) {seen : List β}
    (front : List α) (hseen : ∀ k, k ∈ seen ↔ k ∈ front.map key) (xs : List α) :
    repeatsBy key seen xs = ((xs.zipIdx front.length).filter fun p =>
      key p.1 ∈ ((front ++ xs).take p.2).map key).map Prod.fst := by
  induction xs generalizing seen front with
  | nil => rfl
  | cons x xs ih =>
      have htail : ∀ seen', (∀ k, k ∈ seen' ↔ k ∈ (front ++ [x]).map key) →
          repeatsBy key seen' xs = ((xs.zipIdx (front.length + 1)).filter fun p =>
            key p.1 ∈ ((front ++ x :: xs).take p.2).map key).map Prod.fst := by
        intro seen' hseen'
        rw [ih (front ++ [x]) hseen', List.length_append, List.append_assoc]
        rfl
      have htaken : (front ++ x :: xs).take front.length = front := List.take_left
      rw [repeatsBy, List.zipIdx_cons, List.filter_cons]
      simp only [htaken, ← hseen]
      by_cases hx : key x ∈ seen
      · simp only [hx, if_true, decide_true, List.map_cons]
        rw [htail seen fun k => by simp only [hseen, List.map_append, List.map_singleton]; grind]
      · simp only [hx, if_false, decide_false]
        rw [htail (key x :: seen) fun k => by simp [hseen]; grind]
        rfl

/-- The literals that are the same case as one in front of them. -/
def Literal.laterCases (ls : List Literal) : List Literal :=
  (ls.zipIdx.filter fun (p : Literal × Nat) => ∃ l ∈ ls.take p.2, l.SameCase p.1).map Prod.fst

theorem Literal.repeatsBy_caseKey {ls : List Literal} (h : ∀ l ∈ ls, l.IsNumeral) :
    repeatsBy caseKey [] ls = laterCases ls := by
  rw [repeatsBy_eq_filter caseKey [] (by simp) ls, laterCases]
  refine congrArg (List.map Prod.fst) (List.filter_congr fun p hp => ?_)
  have hmem : p.1 ∈ ls := List.fst_mem_of_mem_zipIdx hp
  rw [List.nil_append, decide_eq_decide, List.mem_map]
  exact exists_congr fun l => and_congr_right fun hl =>
    caseKey_eq_iff (h l (List.mem_of_mem_take hl)) (h p.1 hmem)

/-- A switch with cases is reported for its default cases, and once for every case that is the
same as an earlier one. -/
theorem Stmt.switchViolations_eq_laterCases {scrutinee : Expr} {cases : List Case}
    (hne : cases ≠ []) (h : ∀ l ∈ cases.filterMap Case.value, l.IsNumeral) :
    (Stmt.switch scrutinee cases).switchViolations =
      defaultViolations scrutinee cases ++
        (Literal.laterCases (cases.filterMap Case.value)).map (.repeatedCase · scrutinee) := by
  cases cases with
  | nil => exact absurd rfl hne
  | cons c rest =>
      rw [← Literal.repeatsBy_caseKey h]
      rfl

/-- The keys of the cases of a switch in a valid program are distinct. -/
theorem Block.IsValid.nodup_caseKey {b : Block} (h : b.IsValid) {scrutinee : Expr}
    {cases : List Case} (hs : .switch scrutinee cases ∈ Block.subtrees b) :
    ((cases.filterMap Case.value).map Literal.caseKey).Nodup :=
  (Stmt.switchViolations_eq_nil_iff.mp (h.each_switch _ hs)).distinct

theorem Literal.caseKey_eq_iff_denoted {l m : Literal} (hlk : l.kind = .number)
    (hmk : m.kind = .number) (hl : l.IsSpelled) (hm : m.IsSpelled) :
    l.caseKey = m.caseKey ↔ denoted l.value = denoted m.value ∧
      (denoted l.value < numberBound ∨ l.value = m.value) := by
  rw [caseKey_eq_iff (fun _ => hl) fun _ => hm, SameCase]
  grind

/-- Number tokens have the same key if and only if they denote the same number and this number is
below 2^128, unless they are spelled alike anyway.  A switch is reported for just the cases that
are in this way the same as an earlier one, so two of its cases that are the same number are not
below 2^128 if it stands in a valid program. -/
theorem caseNumbers_compared (scrutinee : Expr) {cases : List Case} (hne : cases ≠ [])
    (hnumerals : ∀ l ∈ cases.filterMap Case.value, l.IsNumeral) :
    (∀ l m : Literal, l.kind = .number → m.kind = .number → l.IsSpelled → m.IsSpelled →
      (l.caseKey = m.caseKey ↔ denoted l.value = denoted m.value ∧
        (denoted l.value < numberBound ∨ l.value = m.value))) ∧
    (Stmt.switch scrutinee cases).switchViolations =
      defaultViolations scrutinee cases ++
        (Literal.laterCases (cases.filterMap Case.value)).map (.repeatedCase · scrutinee) ∧
    ∀ b : Block, b.IsValid → .switch scrutinee cases ∈ Block.subtrees b →
      (cases.filterMap Case.value).Pairwise fun l m =>
        l.kind = .number → m.kind = .number → denoted l.value = denoted m.value →
          numberBound ≤ denoted l.value ∧ l.value ≠ m.value := by
  refine ⟨fun l m => Literal.caseKey_eq_iff_denoted,
    Stmt.switchViolations_eq_laterCases hne hnumerals, fun b hb hs => ?_⟩
  refine (List.pairwise_map.mp (hb.nodup_caseKey hs)).imp_of_mem ?_
  intro l m hl hm hkey hlk hmk hdenoted
  rw [ne_eq, Literal.caseKey_eq_iff_denoted hlk hmk (hnumerals l hl hlk) (hnumerals m hm hmk)]
    at hkey
  grind

/-- A switch on the numbers one and 2^128, the latter spelled in two ways. -/
def bigCases : List Case :=
  [⟨some ⟨.number, "0x01", none⟩, []⟩,
    ⟨some ⟨.number, "340282366920938463463374607431768211456", none⟩, []⟩,
    ⟨some ⟨.number, "0x100000000000000000000000000000000", none⟩, []⟩]

theorem caseNumbers_compared_bigCases :
    bigCases ≠ [] ∧ (∀ l ∈ bigCases.filterMap Case.value, l.IsNumeral) ∧
    (⟨.number, "1", none⟩ : Literal).caseKey = (⟨.number, "0x01", none⟩ : Literal).caseKey ∧
    (Stmt.switch (.variable "x") bigCases).switchViolations = [] ∧
    (bigCases.filterMap Case.value).Pairwise fun l m =>
      l.kind = .number → m.kind = .number → denoted l.value = denoted m.value →
        numberBound ≤ denoted l.value ∧ l.value ≠ m.value := by
  have hne : bigCases ≠ [] := List.cons_ne_nil _ _
  have hnumerals : ∀ l ∈ bigCases.filterMap Case.value, l.IsNumeral := by
    have hspelled : ∀ l ∈ bigCases.filterMap Case.value, l.IsSpelled := by decide +kernel
    exact fun l hl _ => hspelled l hl
  obtain ⟨hkey, hreport, hvalid⟩ := caseNumbers_compared (.variable "x") hne hnumerals
  refine ⟨hne, hnumerals, ?_, hreport.trans (by decide +kernel), ?_⟩
  · exact (hkey ⟨.number, "1", none⟩ ⟨.number, "0x01", none⟩ rfl rfl (by decide +kernel)
      (by decide +kernel)).mpr (by decide +kernel)
  · exact hvalid [.switch (.variable "x") bigCases] (by decide +kernel) (List.mem_cons_self ..)

/-- The number 2^128 in two spellings: they have different keys, and a program with both of them
as cases of one switch is valid. -/
theorem bigCases_not_compared :
    let decimal : Literal := ⟨.number, "340282366920938463463374607431768211456", none⟩
    let hexadecimal : Literal := ⟨.number, "0x100000000000000000000000000000000", none⟩
    decimal.IsSpelled ∧ hexadecimal.IsSpelled ∧ denoted decimal.value = denoted hexadecimal.value ∧
      decimal.caseKey ≠ hexadecimal.caseKey ∧
      Block.IsValid [.switch (.variable "x") [⟨some decimal, []⟩, ⟨some hexadecimal, []⟩]] := by
  decide +kernel

end SwitchHoist
