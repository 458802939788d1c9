import Pseudocode.Stmt
import Pseudocode.Token

/-!
The language, said by rules.

A bare tree is what a program says: names, constants, operators and how they are put together, and
nothing of types and lengths.  `Expr.bare` and its companions forget these of a tree that has them.

The rules say which sequences of kinds of tokens are written for which bare trees.  Sums and
products are given by rules that recur on their left, since their operators associate to the left,
and brackets leave no trace in the tree. A break is one or more line breaks.  Nothing here looks at
names: whether they are bound, whether `NEXT` names the variable of its loop, and whether a whole
numeral is a 32-bit integer are no questions of the grammar.
-/

namespace Pseudocode

/-! ### Bare trees -/

namespace Bare

/-- An expression without shapes. -/
inductive Expr where
  | int (value : Int)
  | double (value : Double)
  | string (text : String)
  | var (name : String)
  | element (name : String) (index : Expr)
  | binary (op : BinaryOp) (lhs rhs : Expr)
  | negate (operand : Expr)
  | call (name : String) (args : List Expr)

/-- Where a value is stored. -/
inductive Target where
  | var (name : String)
  | element (name : String) (index : Expr)

mutual

/-- A statement without shapes. -/
inductive Stmt where
  | expr (e : Expr)
  | assign (target : Target) (value : Expr)
  | array (ty : Ty) (name : String) (size : Expr)
  | output (e : Expr)
  | input (target : Target)
  | ifThen (condition : Expr) (body : List Stmt) (rest : ElsePart)
  | whileLoop (condition : Expr) (body : List Stmt)
  | forLoop (counter : Target) (first bound : Expr) (body : List Stmt)
  | subroutine (name : String) (params : List Param) (body : List Stmt) (ty : Ty)
  | ret (e : Expr)

/-- What follows an arm of a conditional. -/
inductive ElsePart where
  | none
  | body (body : List Stmt)
  | elseIf (condition : Expr) (body : List Stmt) (rest : ElsePart)

end

end Bare

def Literal.bare : Literal → Bare.Expr
  | .int value => .int value.toInt
  | .double value => .double value
  | .string text => .string text

mutual

/-- An expression without its shapes. -/
def Expr.bare : Expr → Bare.Expr
  | .constant value _ => value.bare
  | .var name _ => .var name
  | .element name index _ => .element name index.bare
  | .binary op lhs rhs _ => .binary op lhs.bare rhs.bare
  | .negate operand _ => .negate operand.bare
  | .call name args _ => .call name (bareArguments args)

def bareArguments : List Expr → List Bare.Expr
  | [] => []
  | arg :: args => arg.bare :: bareArguments args

end

def Target.bare : Target → Bare.Target
  | .var name _ => .var name
  | .element name index _ => .element name index.bare

mutual

/-- A statement without its shapes. -/
def Stmt.bare : Stmt → Bare.Stmt
  | .expr e => .expr e.bare
  | .assign a => .assign a.target.bare a.value.bare
  | .array ty name size => .array ty name size.bare
  | .output e => .output e.bare
  | .input target _ => .input target.bare
  | .ifThen condition body rest => .ifThen condition.bare (bareAll body) rest.bare
  | .whileLoop condition body => .whileLoop condition.bare (bareAll body)
  | .forLoop init bound body => .forLoop init.target.bare init.value.bare bound.bare (bareAll body)
  | .subroutine name params body ty => .subroutine name params (bareAll body) ty
  | .ret e => .ret e.bare

def bareAll : List Stmt → List Bare.Stmt
  | [] => []
  | st :: rest => st.bare :: bareAll rest

def ElsePart.bare : ElsePart → Bare.ElsePart
  | .none => .none
  | .body body => .body (bareAll body)
  | .elseIf condition body rest => .elseIf condition.bare (bareAll body) rest.bare

end

/-! ### Expressions -/

namespace Phrase

/-- The signs of comparison. -/
inductive Compares : Mark → BinaryOp → Prop where
  | less : Compares .less .lt
  | lessEqual : Compares .lessEqual .le
  | greater : Compares .greater .gt
  | greaterEqual : Compares .greaterEqual .ge
  | equal : Compares .equal .eq
  | notEqual : Compares .notEqual .ne

/-- The signs of a sum. -/
inductive Adds : Mark → BinaryOp → Prop where
  | plus : Adds .plus .add
  | minus : Adds .minus .sub

/-- The signs of a product. -/
inductive Multiplies : Mark → BinaryOp → Prop where
  | star : Multiplies .star .mul
  | slash : Multiplies .slash .div
  | percent : Multiplies .percent .mod

mutual

/-- A sum, or a comparison of two sums. -/
inductive Expression : List Kind → Bare.Expr → Prop where
  | sum {ts e} : Sum ts e → Expression ts e
  | comparison {ts us m op lhs rhs} : Sum ts lhs → Compares m op → Sum us rhs →
      Expression (ts ++ .mark m :: us) (.binary op lhs rhs)

/-- Products added and subtracted. -/
inductive Sum : List Kind → Bare.Expr → Prop where
  | product {ts e} : Product ts e → Sum ts e
  | step {ts us m op lhs rhs} : Sum ts lhs → Adds m op → Product us rhs →
      Sum (ts ++ .mark m :: us) (.binary op lhs rhs)

/-- Signed operands multiplied and divided. -/
inductive Product : List Kind → Bare.Expr → Prop where
  | signed {ts e} : Signed ts e → Product ts e
  | step {ts us m op lhs rhs} : Product ts lhs → Multiplies m op → Signed us rhs →
      Product (ts ++ .mark m :: us) (.binary op lhs rhs)

/-- An atom with any number of signs before it. -/
inductive Signed : List Kind → Bare.Expr → Prop where
  | atom {ts e} : Atom ts e → Signed ts e
  | minus {ts e} : Signed ts e → Signed (.mark .minus :: ts) (.negate e)

/-- A constant, a variable, an element of an array, a call, or an expression in brackets. -/
inductive Atom : List Kind → Bare.Expr → Prop where
  | int (value) : Atom [.int value] (.int value)
  | double (value) : Atom [.double value] (.double value)
  | string (text) : Atom [.string text] (.string text)
  | var (name) : Atom [.name name] (.var name)
  | element {ts e} (name) : Expression ts e →
      Atom (.name name :: .mark .leftBracket :: (ts ++ [.mark .rightBracket])) (.element name e)
  | call {ts args} (name) : Arguments ts args →
      Atom (.name name :: .mark .leftParen :: (ts ++ [.mark .rightParen])) (.call name args)
  | parens {ts e} : Expression ts e → Atom (.mark .leftParen :: (ts ++ [.mark .rightParen])) e

/-- What stands between the brackets of a call. -/
inductive Arguments : List Kind → List Bare.Expr → Prop where
  | none : Arguments [] []
  | some {ts args} : MoreArguments ts args → Arguments ts args

/-- At least one argument. -/
inductive MoreArguments : List Kind → List Bare.Expr → Prop where
  | one {ts arg} : Expression ts arg → MoreArguments ts [arg]
  | more {ts us arg args} : Expression ts arg → MoreArguments us args →
      MoreArguments (ts ++ .mark .comma :: us) (arg :: args)

end

/-! ### Statements -/

/-- The names of the numeric types. -/
inductive TypeName : Kind → Ty → Prop where
  | int : TypeName (.keyword .int) .int
  | double : TypeName (.keyword .double) .double

/-- Line breaks. -/
def breaks (n : Nat) : List Kind :=
  List.replicate n .newline

theorem breaks_succ (n : Nat) : breaks (n + 1) = .newline :: breaks n :=
  rfl

/-- A variable or an element of an array. -/
inductive Assignable : List Kind → Bare.Target → Prop where
  | var (name) : Assignable [.name name] (.var name)
  | element {ts e} (name) : Expression ts e →
      Assignable (.name name :: .mark .leftBracket :: (ts ++ [.mark .rightBracket]))
      (.element name e)

/-- At least one parameter. -/
inductive MoreParams : List Kind → List Param → Prop where
  | one {k ty} (name) : TypeName k ty → MoreParams [k, .name name] [⟨name, ty⟩]
  | more {k ty ts params} (name) : TypeName k ty → MoreParams ts params →
      MoreParams (k :: .name name :: .mark .comma :: ts) (⟨name, ty⟩ :: params)

/-- What stands between the brackets of the head of a subroutine. -/
inductive Params : List Kind → List Param → Prop where
  | none : Params [] []
  | some {ts params} : MoreParams ts params → Params ts params

mutual

/-- One statement. -/
inductive Statement : List Kind → Bare.Stmt → Prop where
  | expr {ts e} : Expression ts e → Statement ts (.expr e)
  | assign {ts us target e} : Assignable ts target → Expression us e →
      Statement (ts ++ .mark .assign :: us) (.assign target e)
  | array {k ty ts size} (name) : TypeName k ty → Expression ts size →
      Statement (k :: .name name :: .mark .leftBracket :: (ts ++ [.mark .rightBracket]))
      (.array ty name size)
  | output {ts e} : Expression ts e → Statement (.keyword .output :: ts) (.output e)
  | input {ts target} : Assignable ts target → Statement (.keyword .input :: ts) (.input target)
  | ret {ts e} : Expression ts e → Statement (.keyword .returnWord :: ts) (.ret e)
  | ifThen {ts condition body rest} : Conditional ts condition body rest →
      Statement ts (.ifThen condition body rest)
  | whileLoop {ts us condition body} (n) : Expression ts condition → Block us body →
      Statement (.keyword .whileWord ::
        (ts ++ .keyword .doWord :: (breaks (n + 1) ++ us ++ [.keyword .endWhile])))
        (.whileLoop condition body)
  | forLoop {ts us vs first bound body} (counter named n) : Expression ts first →
    Expression us bound →
      Block vs body →
      Statement (.keyword .forWord :: .name counter :: .mark .assign :: (ts ++ .keyword .toWord ::
          (us ++ (breaks (n + 1) ++ vs ++ [.keyword .next, .name named]))))
        (.forLoop (.var counter) first bound body)
  | subroutine {k ty ts us params body} (name n) : TypeName k ty → Params ts params →
    Block us body →
      Statement (k :: .keyword .subroutine :: .name name :: .mark .leftParen ::
        (ts ++ .mark .rightParen ::
          (breaks (n + 1) ++ us ++ [.keyword .endSubroutine])))
        (.subroutine name params body ty)

/-- A conditional from `IF` to its `ENDIF`. -/
inductive Conditional : List Kind → Bare.Expr → List Bare.Stmt → Bare.ElsePart → Prop where
  | arm {ts us vs condition body rest} (n) : Expression ts condition → Block us body →
    Rest vs rest →
      Conditional (.keyword .ifWord :: (ts ++ .keyword .thenWord :: (breaks (n + 1) ++ us ++ vs)))
      condition body rest

/-- What follows the body of an arm. -/
inductive Rest : List Kind → Bare.ElsePart → Prop where
  | none : Rest [.keyword .endIf] .none
  | body {ts body} (n) : Block ts body →
      Rest (.keyword .elseWord :: (breaks (n + 1) ++ ts ++ [.keyword .endIf])) (.body body)
  | elseIf {ts condition body rest} : Conditional ts condition body rest →
      Rest (.keyword .elseWord :: ts) (.elseIf condition body rest)

/-- Statements, each with a break after it. -/
inductive Block : List Kind → List Bare.Stmt → Prop where
  | nil : Block [] []
  | cons {ts us st rest} (n) : Statement ts st → Block us rest → Block (ts ++ breaks (n + 1) ++ us)
    (st :: rest)

end

/-- At least one statement, with breaks between them. -/
inductive Lines : List Kind → List Bare.Stmt → Prop where
  | one {ts st} : Statement ts st → Lines ts [st]
  | more {ts us st rest} (n) : Statement ts st → Lines us rest → Lines (ts ++ breaks (n + 1) ++ us)
    (st :: rest)

/-- A whole program, with line breaks before it and after it. -/
inductive Program : List Kind → List Bare.Stmt → Prop where
  | empty (m n) : Program (breaks m ++ breaks n) []
  | lines {ts sts} (m n) : Lines ts sts → Program (breaks m ++ ts ++ breaks n) sts

theorem Program.after_statement {ts us : List Kind} {st : Bare.Stmt} {rest : List Bare.Stmt}
    (h : Program us rest)
    (m : Nat) (hst : Statement ts st) : Program (breaks m ++ (ts ++ .newline :: us))
    (st :: rest) := by
  cases h with
  | empty k n =>
    have hall : breaks m ++ (ts ++ .newline :: (breaks k ++ breaks n)) = breaks m ++ ts ++
      breaks (k + n + 1) := by
      simp [breaks, List.replicate_succ]
    rw [hall]
    exact .lines m _ (.one hst)
  | @lines us _ k n hlines =>
    have hall : breaks m ++ (ts ++ .newline :: (breaks k ++ us ++ breaks n)) =
        breaks m ++ (ts ++ breaks (k + 1) ++ us) ++ breaks n := by
      simp [breaks_succ]
    rw [hall]
    exact .lines m n (.more k hst hlines)

end Phrase

end Pseudocode
