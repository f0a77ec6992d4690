import SwitchHoist.Digits
import SwitchHoist.Program.Basic

/-!
# When two cases match the same value

Two literals of one kind match the same value if they are spelled alike.  Numbers
also do if their spellings denote the same number below 2^128, however they are
written; a numeral that denotes no such number stands for its own spelling.
-/

namespace SwitchHoist

/-- What a case matches. -/
inductive CaseKey where
  | number (value : Nat)
  | spelled (kind : LiteralKind) (spelling : String)
  deriving DecidableEq, Repr

/-- Numbers are told apart by value below this bound. -/
def numberBound : Nat := Nat.pow 2 128

/-- A numeral may have a plus sign in front of its digits. -/
def numeral? (base : Nat) : List Char → Option Nat
  | '+' :: digits => digits? base digits
  | digits => digits? base digits

/-- The number that a spelling denotes: decimal, or hexadecimal behind `0x`. -/
def numberValue? (spelling : String) : Option Nat :=
  match spelling.toList with
  | '0' :: 'x' :: digits => numeral? 16 digits
  | digits => numeral? 10 digits

/-- The key of a literal in a case. -/
def Literal.caseKey (l : Literal) : CaseKey :=
  match l.kind with
  | .number =>
      match numberValue? l.value with
      | some n => if n < numberBound then .number n else .spelled .number l.value
      | none => .spelled .number l.value
  | kind => .spelled kind l.value

end SwitchHoist
