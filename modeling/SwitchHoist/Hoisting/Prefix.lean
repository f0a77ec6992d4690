import SwitchHoist.Program.Equality
import SwitchHoist.Program.Printer
import SwitchHoist.Renaming

/-!
# The common prefix of the cases of a switch

When every case of a switch starts with the same statement, that statement can
run once in front of the switch.  Declarations may differ in the names they
introduce: those of the first case are kept, and the other cases are renamed.

A statement may only move if no occurrence of a name changes its meaning:

* it neither declares nor assigns a variable of the scrutinee;
* it is not the definition of a function and calls none that a case defines;
* the names it declares are not used behind the switch and were not declared by
  a statement that has moved before it;
* renaming the rest of each case keeps every reference.

Which statements count as the same is a parameter.  An equivalence that takes a
declaration for something else, or for a declaration of a different number of
names, is at fault, and the fault is reported.
-/

namespace SwitchHoist

/-- A test of whether two statements do the same. -/
abbrev Equivalence := Stmt → Stmt → Bool

/-- Why the prefix of a switch cannot be taken. -/
inductive Fault where
  /-- A switch without any case. -/
  | emptySwitch (scrutinee : Expr)
  /-- A declaration was judged equal to a statement that declares nothing. -/
  | notDeclaration (reference : Stmt)
  /-- A declaration was judged equal to one with another number of names. -/
  | arity (reference : Stmt) (own expected : Nat)
  /-- A statement that declares nothing was judged equal to a declaration. -/
  | declaration (reference : Stmt)
  deriving DecidableEq, Repr

/-- The message for a fault. -/
def Fault.message : Fault → String
  | emptySwitch scrutinee => "internal error: switch on " ++ scrutinee.text ++ " has no cases"
  | notDeclaration reference =>
      "internal error: `" ++ reference.text
        ++ "` was judged equal to a statement that is not a declaration"
  | arity reference own expected =>
      "assertion `left == right` failed: internal error: declarations of different arity were "
        ++ "judged equal to `" ++ reference.text ++ "`\n  left: " ++ toString own
        ++ "\n right: " ++ toString expected
  | declaration reference =>
      "internal error: a declaration was judged equal to `" ++ reference.text
        ++ "`, which is not a declaration"

/-- What a statement must leave alone to move in front of a switch. -/
structure Pinned where
  /-- The variables that the scrutinee reads. -/
  variableNames : Names
  /-- The functions that the cases define, which are not visible outside them. -/
  functions : Names
  deriving DecidableEq, Repr

namespace Pinned

/-- What the cases and the scrutinee of a switch pin down. -/
def ofSwitch (scrutinee : Expr) (cases : List Case) : Pinned :=
  ⟨scrutinee.variableNames, cases.flatMap fun c => Block.functions c.body⟩

/-- Whether a statement leaves alone what is pinned. -/
def allows (pinned : Pinned) (s : Stmt) : Bool :=
  s.defined?.isNone
    && Names.disjoint s.declared pinned.variableNames
    && Names.disjoint s.written pinned.variableNames
    && Names.disjoint s.called pinned.functions

end Pinned

namespace Renaming

/-- Gives the names of one list those at the same places of another. -/
def insertAll (ρ : Renaming) (names targets : List String) : Renaming :=
  (names.zip targets).foldl (fun ρ p => ρ.insert p.1 p.2) ρ

end Renaming

/-- A case after the first while the prefix is taken: what is left of it, and the
first case's names for what the statements taken from it declared. -/
structure Follower where
  value : Option Literal
  rest : Block
  renames : Renaming
  deriving DecidableEq, Repr

namespace Follower

/-- A case from which nothing has been taken. -/
def ofCase (c : Case) : Follower :=
  ⟨c.value, c.body, []⟩

/-- The case that is left in the end. -/
def toCase (f : Follower) : Case :=
  ⟨f.value, f.renames.stmts f.rest⟩

/-- The next statement of a case, and the case behind it. -/
def next? (f : Follower) : Option (Stmt × Follower) :=
  match f.rest with
  | [] => none
  | s :: rest => some (s, { f with rest := rest })

/-- Whether the next statement of a case does the same as the reference, once its
variables have the names of the first case. -/
def agrees (equivalent : Equivalence) (reference : Stmt) (head : Stmt × Follower) : Bool :=
  equivalent reference (head.2.renames.stmt head.1)

/-- The case behind a declaration that stands against a declaration of `names`. -/
def pair (reference : Stmt) (names : List String) (head : Stmt × Follower) :
    Except Fault Follower :=
  match head.1 with
  | .declare own _ =>
      if own.length = names.length then
        .ok { head.2 with renames := head.2.renames.insertAll (TypedName.names own) names }
      else .error (.arity reference own.length names.length)
  | _ => .error (.notDeclaration reference)

end Follower

/-- What one step of taking the prefix needs to know about the switch. -/
structure PrefixContext where
  equivalent : Equivalence
  pinned : Pinned
  /-- The names used behind the switch in the same scope. -/
  live : Names

namespace PrefixContext

/-- The cases after the first behind a declaration that moves, together with all
names declared by statements that have moved; `none` if it must stay. -/
def takeDeclaration (taken : Names) (reference : Stmt) (names : List String)
    (heads : List (Stmt × Follower)) (live : Names) :
    Except Fault (Option (Names × List Follower)) := do
  let followers ← heads.mapM (Follower.pair reference names)
  if Names.disjoint names live && Names.disjoint names taken
      && followers.all fun f => f.renames.preserves (taken ++ names) f.rest then
    pure (some (taken ++ names, followers))
  else pure none

/-- The cases after the first behind a statement that moves and declares nothing. -/
def takeOther (taken : Names) (reference : Stmt) (heads : List (Stmt × Follower)) :
    Except Fault (Option (Names × List Follower)) :=
  if heads.any fun h => h.1.isDeclaration then .error (.declaration reference)
  else .ok (some (taken, heads.map Prod.snd))

/-- The cases after the first behind one statement of the prefix, with all names
declared so far; `none` if the statement of the first case must stay. -/
def take (ctx : PrefixContext) (taken : Names) (reference : Stmt) (others : List Follower) :
    Except Fault (Option (Names × List Follower)) :=
  if ctx.pinned.allows reference then
    match others.mapM Follower.next? with
    | none => .ok none
    | some heads =>
        if heads.all (Follower.agrees ctx.equivalent reference) then
          match reference with
          | .declare vars _ =>
              takeDeclaration taken reference (TypedName.names vars) heads ctx.live
          | _ => takeOther taken reference heads
        else .ok none
  else .ok none

end PrefixContext

/-- A switch with its prefix taken out: the prefix, what is left of the first
case, and the other cases. -/
structure Split where
  hoisted : Block
  first : Block
  others : List Follower
  deriving DecidableEq, Repr

/-- Takes statements from the front of all cases for as long as they may move. -/
def PrefixContext.split (ctx : PrefixContext) :
    Names → Block → List Follower → Except Fault Split
  | _, [], others => .ok ⟨[], [], others⟩
  | taken, s :: rest, others => do
      match ← ctx.take taken s others with
      | none => .ok ⟨[], s :: rest, others⟩
      | some (taken, others) =>
          let r ← ctx.split taken rest others
          .ok { r with hoisted := s :: r.hoisted }

/-- The common prefix of the cases of a switch, and the cases without it.  The
live names are those used behind the switch in the same scope. -/
def hoistPrefix (equivalent : Equivalence) (live : Names) (scrutinee : Expr)
    (cases : List Case) : Except Fault (Block × List Case) :=
  match cases with
  | [] => .error (.emptySwitch scrutinee)
  | first :: others => do
      let ctx : PrefixContext := ⟨equivalent, Pinned.ofSwitch scrutinee (first :: others), live⟩
      let r ← ctx.split [] first.body (others.map Follower.ofCase)
      .ok (r.hoisted, ⟨first.value, r.first⟩ :: r.others.map Follower.toCase)

end SwitchHoist
