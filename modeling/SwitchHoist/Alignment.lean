import SwitchHoist.Program.Equality

/-!
# Equality up to declared names

Two statements are aligned when they have the same form, the same literals,
types, callees and function names, and when their variables correspond: a
variable that the first statement declares must stand against the variable that
the second declares at the same place, and a free variable against the free
variable of the same name.

Corresponding declarations get the same number.  Two occurrences correspond if
they resolve to the same number, or if both resolve to none and are spelled
alike.
-/

namespace SwitchHoist

/-- The scopes of one side, innermost first, with the numbers of the names in
them.  In a scope the first entry of a name counts. -/
abbrev Numbering := List (List (String × Nat))

namespace Numbering

/-- The number of a name, innermost scope first. -/
def resolve (scopes : Numbering) (x : String) : Option Nat :=
  scopes.findSome? fun frame => List.lookup x frame

/-- Numbers a name in the innermost scope; without a scope nothing is kept. -/
def bind (x : String) (n : Nat) (scopes : Numbering) : Numbering :=
  match scopes with
  | [] => []
  | frame :: outer => ((x, n) :: frame) :: outer

end Numbering

/-- The declarations met so far on both sides, and the next unused number. -/
structure Bindings where
  left : Numbering
  right : Numbering
  next : Nat
  deriving DecidableEq, Repr

namespace Bindings

/-- One open scope on each side and no declarations. -/
def initial : Bindings :=
  ⟨[[]], [[]], 0⟩

/-- Opens a scope on both sides. -/
def push (b : Bindings) : Bindings :=
  ⟨[] :: b.left, [] :: b.right, b.next⟩

/-- Closes a scope on both sides. -/
def pop (b : Bindings) : Bindings :=
  ⟨b.left.tail, b.right.tail, b.next⟩

/-- Two declarations that correspond. -/
def bind (x y : String) (b : Bindings) : Bindings :=
  ⟨b.left.bind x b.next, b.right.bind y b.next, b.next + 1⟩

/-- Whether two occurrences correspond. -/
def agree (b : Bindings) (x y : String) : Bool :=
  match b.left.resolve x, b.right.resolve y with
  | some m, some n => m == n
  | none, none => x == y
  | _, _ => false

/-- Lists of names that correspond place by place. -/
def agreeAll (b : Bindings) : List String → List String → Bool
  | [], [] => true
  | x :: xs, y :: ys => b.agree x y && b.agreeAll xs ys
  | _, _ => false

/-- Declared names that correspond place by place and have the same types. -/
def declare : List TypedName → List TypedName → Bindings → Option Bindings
  | [], [], b => some b
  | x :: xs, y :: ys, b => if x.typ = y.typ then declare xs ys (b.bind x.name y.name) else none
  | _, _, _ => none

end Bindings

mutual

/-- Whether two expressions are aligned. -/
def Expr.aligned (b : Bindings) : Expr → Expr → Bool
  | .literal l, .literal m => l == m
  | .variable x, .variable y => b.agree x y
  | .call f args, .call g args' => f == g && Expr.alignedList b args args'
  | _, _ => false

/-- Whether two lists of expressions are aligned. -/
def Expr.alignedList (b : Bindings) : List Expr → List Expr → Bool
  | [], [] => true
  | e :: es, f :: fs => e.aligned b f && Expr.alignedList b es fs
  | _, _ => false

end

/-- Whether two values of declarations are aligned, or both are missing. -/
def Expr.alignedOption (b : Bindings) : Option Expr → Option Expr → Bool
  | some e, some f => e.aligned b f
  | none, none => true
  | _, _ => false

mutual

/-- The bindings behind two aligned statements, or `none` if they are not
aligned.  The value of a declaration is compared before its names are bound. -/
def Stmt.align : Stmt → Stmt → Bindings → Option Bindings
  | .expr e, .expr f, b => if e.aligned b f then some b else none
  | .assign xs e, .assign ys f, b =>
      if e.aligned b f && b.agreeAll xs ys then some b else none
  | .declare xs e, .declare ys f, b =>
      if Expr.alignedOption b e f then Bindings.declare xs ys b else none
  | .define f ps rs body, .define g qs ts body', b =>
      if f = g then do
        let b ← Bindings.declare ps qs b.push
        let b ← Bindings.declare rs ts b
        let b ← Block.align body body' b.push
        some b.pop.pop
      else none
  | .branch c body, .branch d body', b =>
      if c.aligned b d then (Block.align body body' b.push).map Bindings.pop else none
  | .switch e cases, .switch f cases', b =>
      if e.aligned b f then Case.align cases cases' b else none
  | .loop pre c post body, .loop pre' d post' body', b => do
      let b ← Block.align pre pre' b.push
      if c.aligned b d then
        let b ← Block.align post post' b.push
        let b ← Block.align body body' b.pop.push
        some b.pop.pop
      else none
  | .break, .break, b => some b
  | .continue, .continue, b => some b
  | .leave, .leave, b => some b
  | .block body, .block body', b => (Block.align body body' b.push).map Bindings.pop
  | _, _, _ => none

/-- The bindings behind two lists of statements that are aligned one by one. -/
def Block.align : List Stmt → List Stmt → Bindings → Option Bindings
  | [], [], b => some b
  | s :: ss, t :: ts, b => do
      let b ← s.align t b
      Block.align ss ts b
  | _, _, _ => none

/-- The bindings behind two lists of cases that are aligned one by one. -/
def Case.align : List Case → List Case → Bindings → Option Bindings
  | [], [], b => some b
  | ⟨v, body⟩ :: cs, ⟨w, body'⟩ :: ds, b =>
      if v = w then do
        let b ← Block.align body body' b.push
        Case.align cs ds b.pop
      else none
  | _, _, _ => none

end

/-- Whether two statements are equal up to the names of the variables that they
declare. -/
def Stmt.alphaEq (s t : Stmt) : Bool :=
  (s.align t Bindings.initial).isSome

end SwitchHoist
