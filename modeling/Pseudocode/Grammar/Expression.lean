import Pseudocode.Grammar.Analysis

/-!
The grammar of expressions.

    expression  =  sum [ comparison-sign sum ]
    sum         =  product { ("+" | "-") product }
    product     =  signed { ("*" | "/" | "%") signed }
    signed      =  "-" signed  |  atom
    atom        =  numeral | string | name [ "(" arguments ")" | "[" expression "]" ]
                |  "(" expression ")"

There is one function for each line.  Operators of a line associate to the left, and the repetitions
`{ … }` are the functions `sumRest` and `productRest`, which are given the operand read so far.
Every function reads at least one token before it comes back to `expression`, so the recursion ends:
the measure is the number of tokens left and, among calls at the same token, the height of the line.
-/

namespace Pseudocode.Grammar

open Analysis

variable {input : Input}

/-- The operator at the cursor, if it is one of the table: with the line it stands on. -/
def operator? (table : List (Mark × BinaryOp)) (c : Cursor input) :
    Option ((BinaryOp × Nat) × c.After) :=
  c.step? fun t => match t.kind with
    | .mark m => (table.lookup m).map fun op => (op, t.line)
    | _ => none

/-- The signs of comparison. -/
def comparisons : List (Mark × BinaryOp) :=
  [(.less, .lt), (.lessEqual, .le), (.greater, .gt), (.greaterEqual, .ge), (.equal, .eq),
    (.notEqual, .ne)]

/-- The signs of a sum. -/
def additions : List (Mark × BinaryOp) :=
  [(.plus, .add), (.minus, .sub)]

/-- The signs of a product. -/
def multiplications : List (Mark × BinaryOp) :=
  [(.star, .mul), (.slash, .div), (.percent, .mod)]

/-- The 32-bit integer equal to a number, if there is one. -/
def word? (value : Int) : Option Int32 :=
  if -2147483648 ≤ value ∧ value ≤ 2147483647 then some (Int32.ofInt value) else none

/-- The constant that a token denotes, if it denotes one. -/
def constant? (t : Token) : Option (Analysis Expr) :=
  match t.kind with
  | .int value =>
    match word? value with
    | some word => some (pure (.ofInt word))
    | none => some (reject t (.wideLiteral t.lexeme))
  | .double value => some (pure (.ofDouble value))
  | .string text => some (pure (.ofString text))
  | _ => none

mutual

/-- A sum, or a comparison of two sums. -/
def expression (scope : Scope) (c : Cursor input) : Analysis (Expr × c.After) := do
  let (lhs, ⟨c₁, h₁⟩) ← sum scope c
  match operator? comparisons c₁ with
  | none => return (lhs, ⟨c₁, h₁⟩)
  | some ((op, line), ⟨c₂, h₂⟩) =>
    let (rhs, ⟨c₃, h₃⟩) ← sum scope c₂
    return (← check (lhs.combine op rhs line), ⟨c₃, c.lt_trans h₁ <| c₁.lt_trans h₂ h₃⟩)
termination_by 8 * c.left + 6

/-- Products added and subtracted. -/
def sum (scope : Scope) (c : Cursor input) : Analysis (Expr × c.After) := do
  let (lhs, ⟨c₁, h₁⟩) ← product scope c
  let (e, ⟨c₂, h₂⟩) ← sumRest scope lhs c₁
  return (e, ⟨c₂, by omega⟩)
termination_by 8 * c.left + 5

/-- What is added to and subtracted from `lhs`. -/
def sumRest (scope : Scope) (lhs : Expr) (c : Cursor input) : Analysis (Expr × c.From) := do
  match operator? additions c with
  | none => return (lhs, ⟨c, c.left_le⟩)
  | some ((op, line), ⟨c₁, h₁⟩) =>
    let (rhs, ⟨c₂, h₂⟩) ← product scope c₁
    let (e, ⟨c₃, h₃⟩) ← sumRest scope (← check (lhs.combine op rhs line)) c₂
    return (e, ⟨c₃, by omega⟩)
termination_by 8 * c.left

/-- Signed operands multiplied and divided. -/
def product (scope : Scope) (c : Cursor input) : Analysis (Expr × c.After) := do
  let (lhs, ⟨c₁, h₁⟩) ← signed scope c
  let (e, ⟨c₂, h₂⟩) ← productRest scope lhs c₁
  return (e, ⟨c₂, by omega⟩)
termination_by 8 * c.left + 4

/-- What `lhs` is multiplied and divided by. -/
def productRest (scope : Scope) (lhs : Expr) (c : Cursor input) : Analysis (Expr × c.From) := do
  match operator? multiplications c with
  | none => return (lhs, ⟨c, c.left_le⟩)
  | some ((op, line), ⟨c₁, h₁⟩) =>
    let (rhs, ⟨c₂, h₂⟩) ← signed scope c₁
    let (e, ⟨c₃, h₃⟩) ← productRest scope (← check (lhs.combine op rhs line)) c₂
    return (e, ⟨c₃, by omega⟩)
termination_by 8 * c.left

/-- An atom with any number of signs before it. -/
def signed (scope : Scope) (c : Cursor input) : Analysis (Expr × c.After) := do
  match c.skip? (.mark .minus) with
  | some ⟨c₁, h₁⟩ =>
    let (operand, ⟨c₂, h₂⟩) ← signed scope c₁
    return (← check (operand.negated c.peek.line), ⟨c₂, c.lt_trans h₁ h₂⟩)
  | none => atom scope c
termination_by 8 * c.left + 3

/-- A constant, a variable, an element of an array, a call, or an expression in brackets. -/
def atom (scope : Scope) (c : Cursor input) : Analysis (Expr × c.After) := do
  match c.step? constant? with
  | some (constant, c₁) => return (← constant, c₁)
  | none =>
    match c.skip? (.mark .leftParen) with
    | some ⟨c₁, h₁⟩ =>
      let (e, ⟨c₂, h₂⟩) ← expression scope c₁
      let ⟨c₃, h₃⟩ ← expect c₂ (.mark .rightParen) "')' after expression"
      return (e, ⟨c₃, c.lt_trans h₁ <| c₁.lt_trans h₂ h₃⟩)
    | none =>
      let line := c.peek.line
      let (name, ⟨c₁, h₁⟩) ← expectName c "expression"
      match c₁.skip? (.mark .leftParen) with
      | some ⟨c₂, h₂⟩ =>
        let (args, ⟨c₃, h₃⟩) ← arguments scope c₂
        return (← check ((← env).call name args line), ⟨c₃, c.lt_trans h₁ <| c₁.lt_trans h₂ h₃⟩)
      | none =>
        match c₁.skip? (.mark .leftBracket) with
        | some ⟨c₂, h₂⟩ =>
          let (index, ⟨c₃, h₃⟩) ← expression scope c₂
          let ⟨c₄, h₄⟩ ← expect c₃ (.mark .rightBracket) "']' after index"
          return (← check ((← env).readElement ⟨name, scope⟩ index line),
            ⟨c₄, c.lt_trans h₁ <| c₁.lt_trans h₂ <| c₂.lt_trans h₃ h₄⟩)
        | none => return ((← env).readVar ⟨name, scope⟩, ⟨c₁, h₁⟩)
termination_by 8 * c.left + 2

/-- The arguments of a call, up to and with the closing bracket. -/
def arguments (scope : Scope) (c : Cursor input) : Analysis (List Expr × c.After) := do
  match c.skip? (.mark .rightParen) with
  | some c₁ => return ([], c₁)
  | none => moreArguments scope c
termination_by 8 * c.left + 8

/-- At least one argument, and the rest of them. -/
def moreArguments (scope : Scope) (c : Cursor input) : Analysis (List Expr × c.After) := do
  let (arg, ⟨c₁, h₁⟩) ← expression scope c
  match c₁.skip? (.mark .comma) with
  | some ⟨c₂, h₂⟩ =>
    let (args, ⟨c₃, h₃⟩) ← moreArguments scope c₂
    return (arg :: args, ⟨c₃, c.lt_trans h₁ <| c₁.lt_trans h₂ h₃⟩)
  | none =>
    let ⟨c₂, h₂⟩ ← expect c₁ (.mark .rightParen) "')' after arguments"
    return ([arg], ⟨c₂, c.lt_trans h₁ h₂⟩)
termination_by 8 * c.left + 7

end

end Pseudocode.Grammar
