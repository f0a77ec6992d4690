import SwitchHoist.Names

/-!
# Scopes

Walking a program keeps a stack of scopes, each with the names it binds.  A name
is bound if any scope on the stack binds it; which one does not matter here.
-/

namespace SwitchHoist

/-- A stack of scopes, innermost first. -/
structure Scopes where
  frames : List Names
  deriving DecidableEq, Repr

namespace Scopes

/-- One open scope that binds nothing. -/
def initial : Scopes :=
  ⟨[[]]⟩

instance : Inhabited Scopes := ⟨initial⟩

/-- Opens a scope. -/
def push (scopes : Scopes) : Scopes :=
  ⟨[] :: scopes.frames⟩

/-- Closes the innermost scope, if there is one. -/
def pop (scopes : Scopes) : Scopes :=
  ⟨scopes.frames.tail⟩

/-- Binds a name in the innermost scope, and opens a scope for it if there is
none. -/
def bind (name : String) (scopes : Scopes) : Scopes :=
  match scopes.frames with
  | [] => ⟨[[name]]⟩
  | frame :: outer => ⟨(name :: frame) :: outer⟩

/-- Binds names one after another. -/
def bindAll (names : Names) (scopes : Scopes) : Scopes :=
  names.foldl (fun s x => s.bind x) scopes

/-- Whether some scope binds a name. -/
def binds (scopes : Scopes) (name : String) : Bool :=
  scopes.frames.any fun frame => frame.contains name

@[simp] theorem binds_initial (x : String) : initial.binds x = false := rfl

@[simp] theorem binds_push (scopes : Scopes) (x : String) :
    scopes.push.binds x = scopes.binds x := by
  simp [binds, push]

@[simp] theorem pop_push (scopes : Scopes) : scopes.push.pop = scopes := rfl

@[simp] theorem binds_bind (scopes : Scopes) (x y : String) :
    (scopes.bind x).binds y = (y == x || scopes.binds y) := by
  obtain ⟨frames⟩ := scopes
  by_cases h : y = x <;> cases frames <;> simp [bind, binds, h]

theorem binds_bindAll (names : Names) (scopes : Scopes) (y : String) :
    (scopes.bindAll names).binds y = (names.contains y || scopes.binds y) := by
  induction names generalizing scopes with
  | nil => simp [bindAll]
  | cons x rest ih =>
      have := ih (scopes.bind x)
      simp only [bindAll, List.foldl_cons] at this ⊢
      rw [this, binds_bind, List.contains_cons]
      cases rest.contains y <;> cases (y == x) <;> simp

end Scopes

end SwitchHoist
