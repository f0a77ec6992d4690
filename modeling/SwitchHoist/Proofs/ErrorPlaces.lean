import SwitchHoist.Proofs.ParserAgreement
import SwitchHoist.Proofs.TextRows
import SwitchHoist.Proofs.TiledTexts

/-!
# Where parsing stops

A production either takes a token or more or fails in front of one, so a parser never reads behind
the tokens and comes to an end, whatever the text.  The bounds of the productions are not what ends
it: above the number of tokens they make no difference.

A token lies in the text from its first byte to its last.  It has no line end in it and does not end
with a carriage return, so the position in a message is the place where it starts, and the line that
is quoted goes on with it.  A string has its quotes, so there is something to take off.
-/

namespace SwitchHoist

/-! ## Productions -/

namespace Parser

/-- What a parser makes of tokens: it takes some of them, at least `k`, or it fails in front of one
of them or behind all. -/
inductive Takes {α : Type} (k : Nat) (ts : List Token) :
    Except Failure (α × List Token) → Prop where
  | ok (x : α) (i : Nat) : k ≤ i → i ≤ ts.length → Takes k ts (.ok (x, ts.drop i))
  | error (expected : Expectation) (i : Nat) : i ≤ ts.length →
      Takes k ts (.error ⟨expected, ts.drop i⟩)

theorem Alike.takes {α : Type} {k : Nat} {ts us : List Token}
    {P Q : Except Failure (α × List Token)} (h : Alike k ts us P Q) : Takes k ts P := by
  cases h with
  | ok x i hk hi => exact .ok x i hk hi
  | error expected i hi => exact .error expected i hi

/-- The parsers of the grammar, with their bounds.  An optional type is not among them: it need not
be there. -/
inductive IsProduction : {α : Type} → (Nat → Parser α) → Prop where
  | block : IsProduction block
  | stmt : IsProduction fun n => stmt n (Parser.block n)
  | declaration : IsProduction declaration
  | definition : IsProduction fun n => definition n (Parser.block n)
  | branch : IsProduction fun n => branch n (Parser.block n)
  | switch : IsProduction fun n => switch n (Parser.block n)
  | valueCase : IsProduction fun n => valueCase (Parser.block n)
  | loop : IsProduction fun n => loop n (Parser.block n)
  | assignmentOrCall : IsProduction assignmentOrCall
  | typedNames : IsProduction typedNames
  | expr : IsProduction expr
  | arguments : IsProduction fun n => separated (Parser.expr n) n
  | literal : IsProduction fun _ => literal
  | program : IsProduction fun _ => program

theorem IsProduction.agree {α : Type} {p : Nat → Parser α} (h : IsProduction p) {n m N : Nat}
    (hn : N ≤ n) (hm : N ≤ m) : Agree N 1 (p n) (p m) := by
  cases h with
  | block => exact block_agree hn hm
  | stmt => exact stmt_agree hn hm (block_agree hn hm)
  | declaration => exact declaration_agree hn hm
  | definition => exact definition_agree hn hm (block_agree hn hm)
  | branch => exact branch_agree hn hm (block_agree hn hm)
  | switch => exact switch_agree hn hm (block_agree hn hm)
  | valueCase => exact valueCase_agree (block_agree hn hm)
  | loop => exact loop_agree hn hm (block_agree hn hm)
  | assignmentOrCall => exact assignmentOrCall_agree hn hm
  | typedNames => exact typedNames_agree hn hm
  | expr => exact expr_agree hn hm
  | arguments => exact (expr_agree hn hm).separated hn hm
  | literal => exact literal_agree N
  | program => exact program_agree N

/-- A production takes a token, whatever its bound, unless it fails. -/
theorem IsProduction.takes {α : Type} {p : Nat → Parser α} (h : IsProduction p) {n : Nat}
    {ts : List Token} (hn : ts.length ≤ n) : p n ts = p ts.length ts ∧ Takes 1 ts (p n ts) := by
  have halike := h.agree hn (Nat.le_refl ts.length) ts ts rfl (Nat.le_refl _)
  exact ⟨halike.eq, halike.takes⟩

/-- The token that was taken last is the one in front of those that are left. -/
theorem getElem?_of_accept? {kind : Token.Kind} {all ts rest : List Token} {t : Token}
    (hall : ts <:+ all) (h : accept? kind ts = .ok (some t, rest)) :
    rest.length < all.length ∧ all[all.length - rest.length - 1]? = some t := by
  obtain ⟨front, rfl⟩ := hall
  obtain ⟨rfl, -⟩ := accept?_eq_some.mp h
  rw [List.length_append, List.length_cons]
  refine ⟨by omega, ?_⟩
  have hindex : front.length + (rest.length + 1) - rest.length - 1 = front.length := by omega
  rw [hindex, List.getElem?_append_right (Nat.le_refl _), Nat.sub_self]
  rfl

end Parser

/-- An error at a token is at one of the tokens. -/
theorem Block.mem_of_ofTokens {ts : List Token} {t : Token} {expected : Expectation}
    (h : ofTokens ts = .error (.atToken t expected)) : t ∈ ts := by
  have htakes := (Parser.program_agree ts.length ts ts rfl (Nat.le_refl _)).takes
  unfold ofTokens at h
  split at h
  · cases h
  · simp only [StateT.run] at h
    cases hprogram : Parser.program ts with
    | ok r =>
        rw [hprogram] at h
        cases h
    | error failure =>
        rw [hprogram] at h htakes
        cases htakes with
        | error expected i hi =>
            simp only [ParseError.ofFailure, Except.error.injEq] at h
            split at h
            · cases h
            · next u rest hdrop =>
                cases h
                exact List.mem_of_mem_drop (hdrop ▸ List.mem_cons_self ..)

/-! ## Tokens in the text -/

theorem not_mem_of_stringElements {v : List Char} (h : (stringElements v).2 = []) : '\n' ∉ v := by
  fun_induction stringElements v with
  | case1 => cases h
  | case2 c rest hc ih => simp [ih h, Ne.symm hc]
  | case3 => cases h
  | case4 c rest _ hc ih =>
      rw [not_or, not_or] at hc
      simp [ih h, Ne.symm hc.2.2]
  | case5 => simp

namespace Token.Kind.Matches

variable {k : Token.Kind} {w : List Char}

/-- No token goes over the end of a line. -/
theorem not_mem_lineEnd (h : k.Matches w) : '\n' ∉ w := by
  by_cases hk : k = .string
  · obtain ⟨v, rfl, hv⟩ := hk ▸ h
    simp [not_mem_of_stringElements hv]
  · exact fun hmem => nomatch (h.isPlain hk _ hmem).1

/-- No token ends with what may belong to the end of a line. -/
theorem getLast?_ne (h : k.Matches w) : w.getLast? ≠ some '\r' := by
  by_cases hk : k = .string
  · obtain ⟨v, rfl, -⟩ := hk ▸ h
    rw [List.getLast?_concat]
    decide
  · exact fun hlast => nomatch (h.isPlain hk _ (List.mem_of_getLast? hlast)).1

end Token.Kind.Matches

/-- A token is a part of the text, from its first byte to its last, and if it is a string, it has a
quote on both sides of its value. -/
structure Token.LiesIn (t : Token) (code : String) : Prop where
  part : ∃ before behind, code.toList = before ++ (t.text.toList ++ behind) ∧
    byteLength before = t.start
  stop_le : t.stop ≤ code.utf8ByteSize
  quoted : t.kind = .string → t.text = "\"" ++ Parser.literalValue t ++ "\""

/-- The value of a string token is what stands between its quotes. -/
theorem Token.text_eq_quoted {t : Token} (hk : t.kind = .string)
    (h : t.kind.Matches t.text.toList) : t.text = "\"" ++ Parser.literalValue t ++ "\"" := by
  obtain ⟨v, htext, -⟩ := hk ▸ h
  have hvalue : (Parser.literalValue t).toList = v := by
    simp [Parser.literalValue, hk, htext]
  rw [← String.toList_inj, String.toList_append, String.toList_append, htext, hvalue]
  rfl

/-- The tokens of a text lie in it, and are texts of their kinds. -/
theorem liesIn_of_lex {code : String} {ts : List Token} (h : lex code = .ok ts) {t : Token}
    (ht : t ∈ ts) : t.LiesIn code ∧ t.kind.Matches t.text.toList := by
  obtain ⟨stop, htiles⟩ := lexFrom_eq_ok_iff.mp h
  have hstart : FromByte code.toList 0 code.toList := ⟨[], rfl, rfl⟩
  obtain ⟨behind, ⟨before, hcode, hbefore⟩, hlongest⟩ := (htiles.tiling hstart).longest t ht
  have hmatches := Token.Kind.mem_pattern_iff.mp hlongest.matched
  refine ⟨⟨⟨before, behind, hcode, hbefore⟩, ?_, fun hk => Token.text_eq_quoted hk hmatches⟩,
    hmatches⟩
  rw [← byteLength_toList, hcode, byteLength_append, byteLength_append, hbefore, ← Nat.add_assoc,
    t.start_add_byteLength]
  exact Nat.le_add_right ..

/-- The position of a token marks it. -/
theorem Token.LiesIn.marks {t : Token} {code : String} (h : t.LiesIn code)
    (hmatches : t.kind.Matches t.text.toList) :
    ∃ rows front, (Position.locate code t.start).Marks code.toList t.start rows front
      t.text.toList := by
  obtain ⟨before, behind, hcode, hbefore⟩ := h.part
  rw [← hbefore]
  exact Position.marks_locate hcode hmatches.ne_nil hmatches.not_mem_lineEnd hmatches.getLast?_ne

end SwitchHoist
