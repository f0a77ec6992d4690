import SwitchHoist.Hoisting.Prefix

/-!
# Hoisting common prefixes in a whole program

The pass goes through the statements of a block from first to last.  It deals
with the blocks inside a statement first, so an inner switch has given up its
prefix before the switch around it is looked at.  The prefix of a switch is put
in front of it and is not looked at again.
-/

namespace SwitchHoist

/-- A statement whose blocks have been dealt with, and in front of it what can be
hoisted out of it.  `after` are the statements behind it in its block and `live`
the names used behind the block in the same scope. -/
def Stmt.hoistOut (equivalent : Equivalence) (after : Block) (live : Names) :
    Stmt → Except Fault Block
  | .switch scrutinee cases => do
      let (hoisted, cases) ←
        hoistPrefix equivalent (Block.freeNames after ++ live) scrutinee cases
      .ok (hoisted ++ [.switch scrutinee cases])
  | s => .ok [s]

/-- The names used in a loop behind its first block, in whose scope they are. -/
def loopNames (condition : Expr) (post body : Block) : Names :=
  condition.variableNames ++ Block.freeNames post ++ Block.freeNames body

mutual

/-- A statement with the pass run on the blocks inside it. -/
def Stmt.hoistWithin (equivalent : Equivalence) : Stmt → Except Fault Stmt
  | .define name params returns body => do
      let body ← Block.hoistBefore equivalent body []
      .ok (.define name params returns body)
  | .branch condition body => do
      let body ← Block.hoistBefore equivalent body []
      .ok (.branch condition body)
  | .switch scrutinee cases => do
      let cases ← Case.hoistAll equivalent cases
      .ok (.switch scrutinee cases)
  | .loop pre condition post body => do
      let pre ← Block.hoistBefore equivalent pre (loopNames condition post body)
      let post ← Block.hoistBefore equivalent post []
      let body ← Block.hoistBefore equivalent body []
      .ok (.loop pre condition post body)
  | .block body => do
      let body ← Block.hoistBefore equivalent body []
      .ok (.block body)
  | s => .ok s

/-- Statements with the pass run on them, where `live` are the names used behind
them in the same scope. -/
def Block.hoistBefore (equivalent : Equivalence) : List Stmt → Names → Except Fault (List Stmt)
  | [], _ => .ok []
  | s :: rest, live => do
      let s ← s.hoistWithin equivalent
      let front ← s.hoistOut equivalent rest live
      let rest ← Block.hoistBefore equivalent rest live
      .ok (front ++ rest)

/-- The cases of a switch with the pass run on their bodies. -/
def Case.hoistAll (equivalent : Equivalence) : List Case → Except Fault (List Case)
  | [] => .ok []
  | ⟨value, body⟩ :: rest => do
      let body ← Block.hoistBefore equivalent body []
      let rest ← Case.hoistAll equivalent rest
      .ok (⟨value, body⟩ :: rest)

end

/-- A program with the common prefixes of its switches hoisted. -/
def Block.hoist (equivalent : Equivalence) (b : Block) : Except Fault Block :=
  Block.hoistBefore equivalent b []

end SwitchHoist
