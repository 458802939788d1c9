import Pseudocode.Event
import Pseudocode.Token.Cursor
import Pseudocode.Typing

/-!
Reading with a memory.

While a program is read, names are bound and subroutines declared, and the log grows.  That is the
`Session`, and it outlives an error: what a rejected program has defined up to the error can still
be looked at.  Where reading has got to is not part of it.  Each function takes a cursor and returns
one further on.
-/

namespace Pseudocode

/-- What is known of the program while it is read, and what has happened so far. -/
structure Session where
  env : Environment := {}
  log : Array Event := #[]

/-- Reading that may bind names, tell events and reject the program. -/
abbrev Analysis := ExceptT SourceError (StateM Session)

namespace Analysis

variable {input : Input}

/-- Goes on with a value, or rejects the program. -/
def check (result : Except SourceError α) : Analysis α :=
  ExceptT.mk (pure result)

/-- Tells an event. -/
def tell (e : Event) : Analysis Unit :=
  modify fun s => { s with log := s.log.push e }

/-- The environment as it is. -/
def env : Analysis Environment :=
  return (← get).env

/-- Binds a symbol to a shape. -/
def bindSymbol (symbol : Symbol) (shape : Shape) : Analysis Unit := do
  tell (.bound symbol shape)
  modify fun s => { s with env := s.env.bind symbol shape }

/-- Declares a subroutine. -/
def register (name : String) (ty : Ty) : Analysis Unit := do
  tell (.registered name ty)
  modify fun s => { s with env := s.env.register name ty }

/-- Rejects the program at a token. -/
def reject (t : Token) (fault : SyntaxFault) : Analysis α :=
  throw (.grammar t.toPosition fault)

/-- Rejects the program because something else was expected at the cursor. -/
def unexpected (c : Cursor input) (what : String) : Analysis α :=
  reject c.peek (.expected what c.peek)

/-- Steps over a token of the given kind, which must be there. -/
def expect (c : Cursor input) (kind : Kind) (what : String) : Analysis c.After :=
  match c.skip? kind with
  | some d => pure d
  | none => unexpected c what

/-- Steps over a name, which must be there. -/
def expectName (c : Cursor input) (what : String) : Analysis (String × c.After) :=
  let name? (t : Token) : Option String := match t.kind with
    | .name text => some text
    | _ => none
  match c.step? name? with
  | some found => pure found
  | none => unexpected c what

/-- Steps over the name of a numeric type, which must be there. -/
def expectType (c : Cursor input) : Analysis (Ty × c.After) :=
  let type? (t : Token) : Option Ty := match t.kind with
    | .keyword .int => some .int
    | .keyword .double => some .double
    | _ => none
  match c.step? type? with
  | some found => pure found
  | none => unexpected c "INT or DOUBLE"

end Analysis

end Pseudocode
