/-!
# Numbers from digits

The digits of base sixteen include those of base ten.  A numeral is read from
the left, and its value is the value of what stands before the last digit times
the base, plus the last digit.
-/

namespace SwitchHoist

/-- The value of a digit; letters of both cases stand for ten to fifteen. -/
def digitValue? (c : Char) : Option Nat :=
  if c.isDigit then some (c.toNat - 48)
  else if 'a' ≤ c ∧ c ≤ 'f' then some (c.toNat - 87)
  else if 'A' ≤ c ∧ c ≤ 'F' then some (c.toNat - 55)
  else none

/-- A digit of base sixteen. -/
def isHexDigit (c : Char) : Bool :=
  (digitValue? c).isSome

/-- The number that digits denote behind digits that denote `high`; `none` if one
of them is no digit of the base. -/
def digitsFrom? (base : Nat) : Nat → List Char → Option Nat
  | high, [] => some high
  | high, c :: rest =>
      match digitValue? c with
      | some d => if d < base then digitsFrom? base (high * base + d) rest else none
      | none => none

/-- The number that one digit or more denote. -/
def digits? (base : Nat) (cs : List Char) : Option Nat :=
  if cs.isEmpty then none else digitsFrom? base 0 cs

end SwitchHoist
