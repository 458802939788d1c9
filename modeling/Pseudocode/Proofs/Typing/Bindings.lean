import Pseudocode.Stmt

/-!
The names that statements bind.

A name is bound by assigning to it, by declaring an array of that name and by counting with it,
wherever in a statement that happens.  What a subroutine binds is bound in a scope of its own and is
not counted among the names of the statement that declares it.
-/

namespace Pseudocode

/-- The name that an assignment binds, if it does. -/
def Assignment.binds (a : Assignment) : List String :=
  match a.target with
  | .var name _ => [name]
  | .element .. => []

theorem Assignment.binds_of_var {a : Assignment} {name : String} {shape : Shape}
    (h : a.target = .var name shape) : a.binds = [a.target.name] := by
  rw [binds, h]
  rfl

mutual

/-- The names that a statement binds in its scope. -/
def Stmt.binds : Stmt → List String
  | .assign a => a.binds
  | .array _ name _ => [name]
  | .ifThen _ body rest => bindsAll body ++ rest.binds
  | .whileLoop _ body => bindsAll body
  | .forLoop init _ body => init.target.name :: bindsAll body
  | _ => []

def bindsAll : List Stmt → List String
  | [] => []
  | s :: rest => s.binds ++ bindsAll rest

def ElsePart.binds : ElsePart → List String
  | .none => []
  | .body body => bindsAll body
  | .elseIf _ body rest => bindsAll body ++ rest.binds

end

mutual

/-- Is every name that is bound in an arm of a conditional also bound before that conditional?
`before` are the names that are bound before the statement. -/
def Stmt.armsBound (before : List String) : Stmt → Bool
  | .ifThen _ body rest =>
  (bindsAll body ++ rest.binds).all (· ∈ before) && armsBoundAll before body &&
      rest.armsBound (bindsAll body ++ before)
  | .whileLoop _ body => armsBoundAll before body
  | .forLoop init _ body => armsBoundAll (init.target.name :: before) body
  | _ => true

def armsBoundAll (before : List String) : List Stmt → Bool
  | [] => true
  | s :: rest => s.armsBound before && armsBoundAll (s.binds ++ before) rest

def ElsePart.armsBound (before : List String) : ElsePart → Bool
  | .none => true
  | .body body => armsBoundAll before body
  | .elseIf _ body rest => armsBoundAll before body && rest.armsBound (bindsAll body ++ before)

end

end Pseudocode
