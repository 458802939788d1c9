import Pseudocode.Grammar.Expression
import Pseudocode.Stmt

/-!
The grammar of statements.

    program     =  statements separated by line breaks
    statement   =  "IF" conditional | while | for | subroutine | array | return | output | input
                |  assignment | expression
    conditional =  expression "THEN" break block
                   ( "ENDIF" | "ELSE" "IF" conditional | "ELSE" break block "ENDIF" )
    while       =  "WHILE" expression "DO" break block "ENDWHILE"
    for         =  "FOR" assignment "TO" expression break block "NEXT" name
    subroutine  =  type "SUBROUTINE" name "(" [ parameters ] ")" break block "ENDSUBROUTINE"
    array       =  type name "[" expression "]"
    return      =  "RETURN" expression
    output      =  "OUTPUT" expression
    input       =  "INPUT" name [ "[" expression "]" ]
    assignment  =  name [ "[" expression "]" ] "=" expression
    block       =  { statement break }

A break is one or more line breaks, and extra ones may stand before any statement.  What the grammar
leaves open is settled here too: names are bound as they are assigned to, a subroutine is declared
before its body is read so that the body may call it, and a statement is told to the log once it has
been read.
-/

namespace Pseudocode.Grammar

open Analysis

variable {input : Input}

/-! ### Statements without a body -/

/-- An expression that is tested or counted up to, which must be a number. -/
def condition (scope : Scope) (c : Cursor input) : Analysis (Expr × c.After) := do
  let (e, c₁) ← expression scope c
  check (e.requireNumeric "a condition or loop bound" c.peek.line)
  return (e, c₁)

/-- The index of an array, up to and with the closing bracket.  The line is the one to blame. -/
def index (scope : Scope) (line : Nat) (c : Cursor input) : Analysis (Expr × c.After) := do
  let (e, ⟨c₁, h₁⟩) ← expression scope c
  check (e.requireNumeric "an array index" line)
  let ⟨c₂, h₂⟩ ← expect c₁ (.mark .rightBracket) "']' after index"
  return (e, ⟨c₂, c.lt_trans h₁ h₂⟩)

/-- Accepts a symbol that is bound. -/
def requireBound (symbol : Symbol) (line : Nat) : Analysis Unit := do
  unless (← env).contains symbol do throw (.undefinedVariable symbol.name line)

/-- Storing a value in a variable, which binds it, or in an element of an array. -/
def assignment (scope : Scope) (c : Cursor input) : Analysis (Assignment × c.After) := do
  let line := c.peek.line
  let (name, ⟨c₁, h₁⟩) ← expectName c "assignment target"
  match c₁.skip? (.mark .leftBracket) with
  | some ⟨c₂, h₂⟩ =>
    requireBound ⟨name, scope⟩ line
    let (i, ⟨c₃, h₃⟩) ← index scope line c₂
    let ⟨c₄, h₄⟩ ← expect c₃ (.mark .assign) "'=' in assignment"
    let (value, ⟨c₅, h₅⟩) ← expression scope c₄
    check (value.requireResolved line)
    let ty := ((← env).shape ⟨name, scope⟩).ty
    if value.ty = .string then throw (.typeMismatch line (.stringInArray name))
    return (⟨.element name i ty, value, ty⟩,
      ⟨c₅, c.lt_trans h₁ <| c₁.lt_trans h₂ <| c₂.lt_trans h₃ <| c₃.lt_trans h₄ h₅⟩)
  | none =>
    let ⟨c₂, h₂⟩ ← expect c₁ (.mark .assign) "'=' in assignment"
    let (value, ⟨c₃, h₃⟩) ← expression scope c₂
    check (value.requireResolved line)
    bindSymbol ⟨name, scope⟩ value.shape
    return (⟨.var name value.shape, value, value.ty⟩,
      ⟨c₃, Nat.le_trans h₃ <| Nat.le_of_lt <| c.lt_trans h₁ h₂⟩)

/-- Declaring an array, which binds its name to the type of its elements. -/
def arrayDeclaration (scope : Scope) (c : Cursor input) : Analysis (Stmt × c.After) := do
  let (ty, ⟨c₁, h₁⟩) ← expectType c
  let (name, ⟨c₂, h₂⟩) ← expectName c₁ "array name"
  let ⟨c₃, h₃⟩ ← expect c₂ (.mark .leftBracket) "'[' after array name"
  let (size, ⟨c₄, h₄⟩) ← expression scope c₃
  check (size.requireNumeric "an array size" c₃.peek.line)
  let ⟨c₅, h₅⟩ ← expect c₄ (.mark .rightBracket) "']' after array size"
  bindSymbol ⟨name, scope⟩ ⟨ty, 0⟩
  return (.array ty name size,
    ⟨c₅, c.lt_trans h₁ <| c₁.lt_trans h₂ <| c₂.lt_trans h₃ <| c₃.lt_trans h₄ h₅⟩)

/-- Leaving a subroutine with a value. -/
def returnStatement (scope : Scope) (c : Cursor input) : Analysis (Stmt × c.After) := do
  let ⟨c₁, h₁⟩ ← expect c (.keyword .returnWord) "RETURN"
  if scope = .top then reject c.peek .returnOutside
  let (e, ⟨c₂, h₂⟩) ← expression scope c₁
  check (e.requireResolved c.peek.line)
  return (.ret e, ⟨c₂, c.lt_trans h₁ h₂⟩)

/-- Printing a value. -/
def outputStatement (scope : Scope) (c : Cursor input) : Analysis (Stmt × c.After) := do
  let ⟨c₁, h₁⟩ ← expect c (.keyword .output) "OUTPUT"
  let (e, ⟨c₂, h₂⟩) ← expression scope c₁
  check (e.requireResolved c.peek.line)
  return (.output e, ⟨c₂, c.lt_trans h₁ h₂⟩)

/-- Reading a value into a variable or an element of an array, which must be bound already. -/
def inputStatement (scope : Scope) (c : Cursor input) : Analysis (Stmt × c.After) := do
  let ⟨c₁, h₁⟩ ← expect c (.keyword .input) "INPUT"
  let line := c₁.peek.line
  let (name, ⟨c₂, h₂⟩) ← expectName c₁ "variable after INPUT"
  requireBound ⟨name, scope⟩ line
  let shape := (← env).shape ⟨name, scope⟩
  match c₂.skip? (.mark .leftBracket) with
  | some ⟨c₃, h₃⟩ =>
    let (i, ⟨c₄, h₄⟩) ← index scope line c₃
    return (.input (.element name i shape.ty) shape.ty,
      ⟨c₄, Nat.le_trans h₄ <| Nat.le_of_lt <| c.lt_trans h₁ <| c₁.lt_trans h₂ h₃⟩)
  | none => return (.input (.var name shape) shape.ty, ⟨c₂, c.lt_trans h₁ h₂⟩)

/-- An expression whose value is not used. -/
def expressionStatement (scope : Scope) (c : Cursor input) : Analysis (Stmt × c.After) := do
  let (e, c₁) ← expression scope c
  check (e.requireResolved c.peek.line)
  return (.expr e, c₁)

/-! ### The head of a subroutine -/

/-- At least one parameter, and the rest of them.  None may be among those read so far. -/
def moreParams (seen : List Param) (c : Cursor input) : Analysis (List Param × c.After) := do
  let (ty, ⟨c₁, h₁⟩) ← expectType c
  let (name, ⟨c₂, h₂⟩) ← expectName c₁ "parameter name"
  if seen.any (·.name == name) then reject c₁.peek (.duplicateParam name)
  let params := seen ++ [⟨name, ty⟩]
  match c₂.skip? (.mark .comma) with
  | some ⟨c₃, h₃⟩ =>
    let (all, ⟨c₄, h₄⟩) ← moreParams params c₃
    return (all, ⟨c₄, c.lt_trans h₁ <| c₁.lt_trans h₂ <| c₂.lt_trans h₃ h₄⟩)
  | none => return (params, ⟨c₂, c.lt_trans h₁ h₂⟩)
termination_by c.left

/-- The parameters of a subroutine, if there are any. -/
def params (c : Cursor input) : Analysis (List Param × c.From) := do
  if c.peek.kind = .mark .rightParen then return ([], ⟨c, c.left_le⟩)
  let (all, ⟨c₁, h₁⟩) ← moreParams [] c
  return (all, ⟨c₁, by omega⟩)

/-- The first line of a subroutine, which declares it and binds its parameters. -/
def subroutineHead (scope : Scope) (c : Cursor input) :
    Analysis ((Ty × String × List Param) × c.After) := do
  let (ty, ⟨c₁, h₁⟩) ← expectType c
  let ⟨c₂, h₂⟩ ← expect c₁ (.keyword .subroutine) "SUBROUTINE"
  if let .subroutine outer := scope then reject c₁.peek (.nestedSubroutine outer)
  let (name, ⟨c₃, h₃⟩) ← expectName c₂ "subroutine name"
  let ⟨c₄, h₄⟩ ← expect c₃ (.mark .leftParen) "'(' after subroutine name"
  let (all, ⟨c₅, h₅⟩) ← params c₄
  let ⟨c₆, h₆⟩ ← expect c₅ (.mark .rightParen) "')' after parameter list"
  register name ty
  all.forM fun p => bindSymbol ⟨p.name, .subroutine name⟩ ⟨p.ty, 0⟩
  let ⟨c₇, h₇⟩ ← expect c₆ .newline "line break after subroutine header"
  return ((ty, name, all), ⟨c₇, by omega⟩)

/-- The first line of a counting loop, which binds its variable. -/
def forHead (scope : Scope) (c : Cursor input) : Analysis ((Assignment × Expr) × c.After) := do
  let ⟨c₁, h₁⟩ ← expect c (.keyword .forWord) "FOR"
  unless c₁.atName && c₁.secondKind? == some (.mark .assign) do
    reject c₁.peek .noLoopAssignment
  let (init, ⟨c₂, h₂⟩) ← assignment scope c₁
  unless init.ty.isNumeric do
    throw (.typeMismatch c₁.peek.line (.loopVariable init.target.name))
  let ⟨c₃, h₃⟩ ← expect c₂ (.keyword .toWord) "TO after FOR initializer"
  let (bound, ⟨c₄, h₄⟩) ← condition scope c₃
  let ⟨c₅, h₅⟩ ← expect c₄ .newline "line break after FOR bound"
  return ((init, bound),
    ⟨c₅, c.lt_trans h₁ <| c₁.lt_trans h₂ <| c₂.lt_trans h₃ <| c₃.lt_trans h₄ h₅⟩)

/-- The last line of a counting loop, which names its variable again. -/
def forTail (counter : String) (c : Cursor input) : Analysis c.After := do
  let ⟨c₁, h₁⟩ ← expect c (.keyword .next) "NEXT to close FOR"
  let (named, ⟨c₂, h₂⟩) ← expectName c₁ "loop variable after NEXT"
  if named ≠ counter then reject c₁.peek (.nextMismatch named counter)
  return ⟨c₂, c.lt_trans h₁ h₂⟩

/-! ### Statements with a body -/

mutual

/-- One statement. -/
def statement (scope : Scope) (c : Cursor input) : Analysis (Stmt × c.After) := do
  let (s, c₁) ← match c.peek.kind with
    | .keyword .ifWord => do
      let ((condition, body, rest), c₁) ← conditional scope c
      pure (Stmt.ifThen condition body rest, c₁)
    | .keyword .whileWord => whileStatement scope c
    | .keyword .forWord => forStatement scope c
    | .keyword .int => declaration scope c
    | .keyword .double => declaration scope c
    | .keyword .returnWord => returnStatement scope c
    | .keyword .output => outputStatement scope c
    | .keyword .input => inputStatement scope c
    | .name _ =>
      if c.atAssignment then do
        let (a, c₁) ← assignment scope c
        pure (Stmt.assign a, c₁)
      else expressionStatement scope c
    | _ => expressionStatement scope c
  tell (.reduced s.label c.peek.line)
  return (s, c₁)
termination_by 4 * c.left + 2

/-- A declaration of a subroutine or of an array. -/
def declaration (scope : Scope) (c : Cursor input) : Analysis (Stmt × c.After) :=
  if c.secondKind? == some (.keyword .subroutine) then do
    let ((ty, name, all), ⟨c₁, h₁⟩) ← subroutineHead scope c
    let (body, ⟨c₂, h₂⟩) ← block (.subroutine name) [.endSubroutine] .endSubroutine c₁
    let ⟨c₃, h₃⟩ ← expect c₂ (.keyword .endSubroutine) "ENDSUBROUTINE"
    return (.subroutine name all body ty, ⟨c₃, by omega⟩)
  else arrayDeclaration scope c
termination_by 4 * c.left + 1

/-- A conditional from `IF` to its `ENDIF`, which closes all of its arms. -/
def conditional (scope : Scope) (c : Cursor input) :
    Analysis ((Expr × List Stmt × ElsePart) × c.After) := do
  let ⟨c₁, h₁⟩ ← expect c (.keyword .ifWord) "IF"
  let (test, ⟨c₂, h₂⟩) ← condition scope c₁
  let ⟨c₃, h₃⟩ ← expect c₂ (.keyword .thenWord) "THEN after IF condition"
  let ⟨c₄, h₄⟩ ← expect c₃ .newline "line break after THEN"
  let (body, ⟨c₅, h₅⟩) ← block scope [.elseWord, .endIf] .endIf c₄
  match c₅.skip? (.keyword .endIf) with
  | some ⟨c₆, h₆⟩ => return ((test, body, .none), ⟨c₆, by omega⟩)
  | none =>
    let ⟨c₆, h₆⟩ ← expect c₅ (.keyword .elseWord) "ELSE or ENDIF"
    if c₆.peek.kind = .keyword .ifWord then
      let ((nextTest, nextBody, rest), ⟨c₇, h₇⟩) ← conditional scope c₆
      return ((test, body, .elseIf nextTest nextBody rest), ⟨c₇, by omega⟩)
    else
      let ⟨c₇, h₇⟩ ← expect c₆ .newline "line break after ELSE"
      let (last, ⟨c₈, h₈⟩) ← block scope [.endIf] .endIf c₇
      let ⟨c₉, h₉⟩ ← expect c₈ (.keyword .endIf) "ENDIF to close IF"
      return ((test, body, .body last), ⟨c₉, by omega⟩)
termination_by 4 * c.left + 1

/-- A loop that runs until its condition fails. -/
def whileStatement (scope : Scope) (c : Cursor input) : Analysis (Stmt × c.After) := do
  let ⟨c₁, h₁⟩ ← expect c (.keyword .whileWord) "WHILE"
  let (test, ⟨c₂, h₂⟩) ← condition scope c₁
  let ⟨c₃, h₃⟩ ← expect c₂ (.keyword .doWord) "DO after WHILE condition"
  let ⟨c₄, h₄⟩ ← expect c₃ .newline "line break after DO"
  let (body, ⟨c₅, h₅⟩) ← block scope [.endWhile] .endWhile c₄
  let ⟨c₆, h₆⟩ ← expect c₅ (.keyword .endWhile) "ENDWHILE to close WHILE"
  return (.whileLoop test body, ⟨c₆, by omega⟩)
termination_by 4 * c.left + 1

/-- A loop that counts a variable up. -/
def forStatement (scope : Scope) (c : Cursor input) : Analysis (Stmt × c.After) := do
  let ((init, bound), ⟨c₁, h₁⟩) ← forHead scope c
  let (body, ⟨c₂, h₂⟩) ← block scope [.next] .next c₁
  let ⟨c₃, h₃⟩ ← forTail init.target.name c₂
  return (.forLoop init bound body, ⟨c₃, by omega⟩)
termination_by 4 * c.left + 1

/-- Statements, each with a line break after it, up to one of the closing keywords.  If there is
none, `closer` is the one to ask for. -/
def block (scope : Scope) (closers : List Keyword) (closer : Keyword) (c : Cursor input) :
    Analysis (List Stmt × c.From) := do
  let ⟨c₁, h₁⟩ := c.skipNewlines
  if closers.any fun k => c₁.peek.kind == .keyword k then return ([], ⟨c₁, h₁⟩)
  if c₁.atEnd then reject c₁.peek (.unclosed closer)
  let (s, ⟨c₂, h₂⟩) ← statement scope c₁
  let ⟨c₃, h₃⟩ ← expect c₂ .newline "line break after statement"
  let (rest, ⟨c₄, h₄⟩) ← block scope closers closer c₃
  return (s :: rest, ⟨c₄, by omega⟩)
termination_by 4 * c.left + 3

end

/-- The statements of a whole program.  The last one needs no line break after it. -/
def statements (c : Cursor input) : Analysis (List Stmt) := do
  let ⟨c₁, _⟩ := c.skipNewlines
  if c₁.atEnd then return []
  let (s, ⟨c₂, _⟩) ← statement .top c₁
  if c₂.atEnd then return [s]
  let ⟨c₃, _⟩ ← expect c₂ .newline "line break after statement"
  return s :: (← statements c₃)
termination_by c.left

end Pseudocode.Grammar

namespace Pseudocode

/-- Reads a program from its tokens: the program, or why it is rejected, and what is known at the
end. -/
def analyze (tokens : List Token) : Except SourceError Program × Session :=
  (Grammar.statements (.start (.ofTokens tokens))).run.run {}

/-- Reads a program from its tokens. -/
def parse (tokens : List Token) : Except SourceError Program :=
  (analyze tokens).1

end Pseudocode
