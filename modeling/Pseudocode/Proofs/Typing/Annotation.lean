import Pseudocode.Proofs.Grammar.Statements

/-!
The types of a program can be found again.

A tree that has been read carries a shape at every node.  Here all of them are forgotten and found
again from what the program says alone: `annotate` walks a bare tree in the order of its text, with
a ledger of its own in which it writes down what the names are bound to and what the subroutines
return.  It gives no tree where a name is used that is not in the ledger, or where a number is
needed and there is none.

The walk gives back the tree that was read (`annotate_of_agrees` and its companions).  No type in
such a tree is undetermined, and no number has a length (`Shape.Proper`), because neither can be
said of any name in the environment.

How the lengths of two strings are added is an argument of the walk, since it makes a difference.
Words are added while a program is read, and with their sums the walk always finds the lengths that
were found then.  With exact sums it finds them if none of these needs more than sixty-four bits,
and only then (`annotate_of_parse`); doubling a string often enough is all that it takes
(`not_annotate_doubled`).
-/

namespace Pseudocode

variable {ty : Ty} {shape left right : Shape}

/-- What a walk through a program has seen so far. -/
structure Ledger where
  /-- The shapes that names are bound to. -/
  shape? : Symbol → Option Shape
  /-- The types that subroutines return. -/
  return? : String → Option Ty

namespace Ledger

/-- Nothing has been seen yet. -/
def empty : Ledger := ⟨fun _ => none, fun _ => none⟩

/-- A name is bound. -/
def bind (l : Ledger) (symbol : Symbol) (shape : Shape) : Ledger :=
  { l with shape? := fun s => if s = symbol then some shape else l.shape? s }

/-- A subroutine is declared. -/
def declare (l : Ledger) (name : String) (ty : Ty) : Ledger :=
  { l with return? := fun f => if f = name then some ty else l.return? f }

/-- A subroutine is declared and its parameters are bound. -/
def enter (l : Ledger) (name : String) (params : List Param) (ty : Ty) : Ledger :=
  params.foldl (fun l p => l.bind ⟨p.name, .subroutine name⟩ ⟨p.ty, 0⟩) (l.declare name ty)

end Ledger

/-! ### Finding types -/

section

variable (add : Nat → Nat → Nat)

/-- The shape of two operands combined: numbers of different types give a binary64 number, and
strings can be put together. -/
def Shape.result? (op : BinaryOp) (left right : Shape) : Option Shape :=
  if left.ty.isNumeric ∧ right.ty.isNumeric then
    some ⟨if left.ty = .double ∨ right.ty = .double then .double else .int, 0⟩
  else if left.ty = .string ∧ right.ty = .string ∧ op = .add then
    some ⟨.string, add left.length right.length⟩
  else none

/-- The expression, if its value is a number. -/
def Expr.number? (e : Expr) : Option Expr :=
  if e.ty.isNumeric then some e else none

mutual

/-- An expression with the shapes that its nodes have. -/
def Bare.Expr.annotate (l : Ledger) (scope : Scope) : Bare.Expr → Option Expr
  | .int value => some (.constant (.int (.ofInt value)) ⟨.int, 0⟩)
  | .double value => some (.constant (.double value) ⟨.double, 0⟩)
  | .string text => some (.constant (.string text) ⟨.string, text.utf8ByteSize + 1⟩)
  | .var name => (l.shape? ⟨name, scope⟩).map (.var name)
  | .element name index => do
    let i ← (← index.annotate l scope).number?
    let shape ← l.shape? ⟨name, scope⟩
    return .element name i ⟨shape.ty, 0⟩
  | .binary op lhs rhs => do
    let left ← lhs.annotate l scope
    let right ← rhs.annotate l scope
    return .binary op left right (← Shape.result? add op left.shape right.shape)
  | .negate operand => do
    let e ← (← operand.annotate l scope).number?
    return .negate e ⟨e.ty, 0⟩
  | .call name args => do
    let ty ← l.return? name
    return .call name (← annotateArguments l scope args) ty

/-- The arguments of a call, which must be numbers. -/
def annotateArguments (l : Ledger) (scope : Scope) : List Bare.Expr → Option (List Expr)
  | [] => some []
  | arg :: args => do
    let e ← (← arg.annotate l scope).number?
    return e :: (← annotateArguments l scope args)

end

/-- An assignment.  The value is looked at before the name is bound. -/
def Bare.Target.annotateStore (l : Ledger) (scope : Scope) (value : Bare.Expr) :
    Bare.Target → Option (Assignment × Ledger)
  | .var name => do
    let e ← value.annotate add l scope
    return (⟨.var name e.shape, e, e.ty⟩, l.bind ⟨name, scope⟩ e.shape)
  | .element name index => do
    let shape ← l.shape? ⟨name, scope⟩
    let i ← (← index.annotate add l scope).number?
    let e ← (← value.annotate add l scope).number?
    return (⟨.element name i shape.ty, e, shape.ty⟩, l)

/-- Where a value is read to. -/
def Bare.Target.annotate (l : Ledger) (scope : Scope) : Bare.Target → Option Pseudocode.Target
  | .var name => (l.shape? ⟨name, scope⟩).map (.var name)
  | .element name index => do
    let shape ← l.shape? ⟨name, scope⟩
    return .element name (← (← index.annotate add l scope).number?) shape.ty

mutual

/-- A statement with the shapes that its nodes have, and the ledger behind it. -/
def Bare.Stmt.annotate (l : Ledger) (scope : Scope) : Bare.Stmt → Option (Stmt × Ledger)
  | .expr e => do return (.expr (← e.annotate add l scope), l)
  | .assign target value => do
    let (a, l₁) ← target.annotateStore add l scope value
    return (.assign a, l₁)
  | .array ty name size => do
    let e ← (← size.annotate add l scope).number?
    return (.array ty name e, l.bind ⟨name, scope⟩ ⟨ty, 0⟩)
  | .output e => do return (.output (← e.annotate add l scope), l)
  | .input target => do
    let place ← target.annotate add l scope
    return (.input place place.ty, l)
  | .ifThen condition body rest => do
    let test ← (← condition.annotate add l scope).number?
    let (first, l₁) ← annotateAll l scope body
    let (others, l₂) ← rest.annotate l₁ scope
    return (.ifThen test first others, l₂)
  | .whileLoop condition body => do
    let test ← (← condition.annotate add l scope).number?
    let (again, l₁) ← annotateAll l scope body
    return (.whileLoop test again, l₁)
  | .forLoop counter first bound body => do
    let (init, l₁) ← counter.annotateStore add l scope first
    let limit ← (← bound.annotate add l₁ scope).number?
    let (again, l₂) ← annotateAll l₁ scope body
    return (.forLoop init limit again, l₂)
  | .subroutine name params body ty => do
    let (inner, l₁) ← annotateAll (l.enter name params ty) (.subroutine name) body
    return (.subroutine name params inner ty, l₁)
  | .ret e => do return (.ret (← e.annotate add l scope), l)

def annotateAll (l : Ledger) (scope : Scope) : List Bare.Stmt → Option (List Stmt × Ledger)
  | [] => some ([], l)
  | st :: rest => do
    let (first, l₁) ← st.annotate l scope
    let (others, l₂) ← annotateAll l₁ scope rest
    return (first :: others, l₂)

def Bare.ElsePart.annotate (l : Ledger) (scope : Scope) : Bare.ElsePart → Option (ElsePart × Ledger)
  | .none => some (.none, l)
  | .body body => do
    let (last, l₁) ← annotateAll l scope body
    return (.body last, l₁)
  | .elseIf condition body rest => do
    let test ← (← condition.annotate add l scope).number?
    let (first, l₁) ← annotateAll l scope body
    let (others, l₂) ← rest.annotate l₁ scope
    return (.elseIf test first others, l₂)

end

end

/-! ### What a tree says -/

/-- What a tree says at one place: a shape and, if it is that of two operands combined, their
shapes. -/
structure Note where
  shape : Shape
  operands : Option (Shape × Shape) := none
  deriving DecidableEq

/-- If strings are put together here, are their lengths added like this? -/
def Note.Adds (add : Nat → Nat → Nat) (note : Note) : Prop :=
  ∀ pair ∈ note.operands, note.shape.ty = .string →
    note.shape.length = add pair.1.length pair.2.length

/-- If strings are put together here, does a word hold the exact sum of their lengths? -/
def Note.Fits (note : Note) : Prop :=
  ∀ pair ∈ note.operands, note.shape.ty = .string →
    pair.1.length - 1 + pair.2.length < UInt64.size

instance (note : Note) : Decidable note.Fits :=
  inferInstanceAs (Decidable (∀ pair ∈ note.operands, _ → _))

mutual

/-- What an expression says. -/
def Expr.notes : Expr → List Note
  | .constant _ shape => [{ shape }]
  | .var _ shape => [{ shape }]
  | .element _ index shape => { shape } :: index.notes
  | .binary _ lhs rhs shape => ⟨shape, some (lhs.shape, rhs.shape)⟩ :: (lhs.notes ++ rhs.notes)
  | .negate operand shape => { shape } :: operand.notes
  | .call _ args ty => { shape := ⟨ty, 0⟩ } :: notesOfArguments args

def notesOfArguments : List Expr → List Note
  | [] => []
  | arg :: args => arg.notes ++ notesOfArguments args

end

def Target.notes : Target → List Note
  | .var _ shape => [{ shape }]
  | .element _ index ty => { shape := ⟨ty, 0⟩ } :: index.notes

def Assignment.notes (a : Assignment) : List Note :=
  { shape := ⟨a.ty, 0⟩ } :: (a.target.notes ++ a.value.notes)

mutual

/-- What a statement says.  A type that stands alone is the shape of that type without a length. -/
def Stmt.notes : Stmt → List Note
  | .expr e => e.notes
  | .assign a => a.notes
  | .array ty _ size => { shape := ⟨ty, 0⟩ } :: size.notes
  | .output e => e.notes
  | .input target ty => { shape := ⟨ty, 0⟩ } :: target.notes
  | .ifThen condition body rest => condition.notes ++ (notesAll body ++ rest.notes)
  | .whileLoop condition body => condition.notes ++ notesAll body
  | .forLoop init bound body => init.notes ++ (bound.notes ++ notesAll body)
  | .subroutine _ params body ty =>
    { shape := ⟨ty, 0⟩ } :: (params.map fun p => { shape := ⟨p.ty, 0⟩ }) ++ notesAll body
  | .ret e => e.notes

def notesAll : List Stmt → List Note
  | [] => []
  | st :: rest => st.notes ++ notesAll rest

def ElsePart.notes : ElsePart → List Note
  | .none => []
  | .body body => notesAll body
  | .elseIf condition body rest => condition.notes ++ (notesAll body ++ rest.notes)

end

/-- Is the type one that values have, and does the shape have a length only if it is a string's? -/
structure Shape.Proper (shape : Shape) : Prop where
  determined : shape.ty ≠ .undetermined
  length : shape.ty.isNumeric → shape.length = 0

/-- Is the shape proper, and is the length of strings put together the sum of their lengths as
words? -/
structure Note.Proper (note : Note) : Prop where
  shape : note.shape.Proper
  sum : note.Adds Shape.concatLength

theorem Note.Proper.of_shape (h : shape.Proper) : ({ shape } : Note).Proper :=
  ⟨h, nofun⟩

/-! ### Environments -/

theorem Ty.isResolved_of_isNumeric (h : ty.isNumeric) : ty.isResolved := by
  cases ty <;> simp_all [isNumeric, isResolved]

theorem Ty.isResolved_iff : ty.isResolved ↔ ty ≠ .undetermined := by
  cases ty <;> simp [isResolved]

/-- Every bound name has a proper shape, and every subroutine returns a number. -/
structure Environment.Proper (env : Environment) : Prop where
  shapes : ∀ symbol, env.contains symbol → (env.shape symbol).Proper
  returns : ∀ name ty, env.returnTy? name = some ty → ty.isNumeric

/-- The ledger of a walk that has seen what the environment holds. -/
def Environment.ledger (env : Environment) : Ledger :=
  ⟨fun symbol => env.symbols[symbol]?, env.returnTy?⟩

namespace Environment

variable {env : Environment}

theorem ledger_bind (symbol : Symbol) (shape : Shape) :
    (env.bind symbol shape).ledger = env.ledger.bind symbol shape := by
  simp only [ledger, Ledger.bind, Ledger.mk.injEq]
  refine ⟨funext fun other => ?_, rfl⟩
  simp [bind, Std.TreeMap.getElem?_insert, @eq_comm _ other]

theorem ledger_register (name : String) (ty : Ty) :
    (env.register name ty).ledger = env.ledger.declare name ty := by
  simp only [ledger, Ledger.declare, Ledger.mk.injEq]
  refine ⟨rfl, funext fun other => ?_⟩
  simp [eq_comm]

theorem ledger_enter (name : String) (params : List Param) (ty : Ty) :
    (env.enter name params ty).ledger = env.ledger.enter name params ty := by
  unfold enter Ledger.enter
  rw [← ledger_register]
  generalize env.register name ty = env'
  induction params generalizing env' with
  | nil => rfl
  | cons p params ih => rw [List.foldl_cons, List.foldl_cons, ih, ledger_bind]

theorem shape?_ledger {symbol : Symbol} (h : env.contains symbol) :
    env.ledger.shape? symbol = some (env.shape symbol) := by
  simp only [ledger, shape]
  exact Std.TreeMap.getElem?_eq_some_getD_of_contains h

namespace Proper

theorem empty : ({} : Environment).Proper := by
  constructor
  · intro symbol h
    simp [contains] at h
  · intro name ty h
    simp [returnTy?] at h

theorem bind (h : env.Proper) (symbol : Symbol) (hshape : shape.Proper) :
    (env.bind symbol shape).Proper := by
  constructor
  · intro other hother
    rw [shape_bind]
    split
    · exact hshape
    · next hne =>
        rw [contains_bind, Bool.or_eq_true, beq_iff_eq] at hother
        exact h.shapes other (hother.resolve_left hne)
  · exact h.returns

theorem register (h : env.Proper) (name : String) (hty : ty.isNumeric) :
    (env.register name ty).Proper := by
  refine ⟨h.shapes, fun other ty' hother => ?_⟩
  rw [returnTy?_register] at hother
  split at hother
  · rwa [← Option.some.inj hother]
  · exact h.returns other ty' hother

end Proper

end Environment

theorem Shape.proper_number (h : ty.isNumeric) : (⟨ty, 0⟩ : Shape).Proper :=
  ⟨Ty.isResolved_iff.1 (Ty.isResolved_of_isNumeric h), fun _ => rfl⟩

theorem Environment.Proper.enter {env : Environment} (h : env.Proper) (name : String)
    {params : List Param}
    (hty : ty.isNumeric) (hparams : ∀ p ∈ params, p.ty.isNumeric) :
    (env.enter name params ty).Proper := by
  unfold Environment.enter
  have hstart := h.register name hty
  generalize env.register name ty = env' at hstart
  induction params generalizing env' with
  | nil => exact hstart
  | cons p params ih =>
    obtain ⟨hp, hrest⟩ := List.forall_mem_cons.1 hparams
    exact ih hrest _ (hstart.bind _ (Shape.proper_number hp))

/-! ### Expressions -/

section

variable {env : Environment} {scope : Scope}

variable {add : Nat → Nat → Nat}

theorem Shape.result?_of_combined? {op : BinaryOp} (h : Shape.combined? op left right = some shape)
    (hadd : (⟨shape, some (left, right)⟩ : Note).Adds add) :
    Shape.result? add op left right = some shape := by
  rcases combined?_cases h with ⟨hleft, hright, -, rfl⟩ | ⟨rfl, hleft, hright, rfl⟩
  · simp [result?, hleft, hright]
  · have hlength : concatLength left.length right.length = add left.length right.length :=
      hadd (left, right) rfl rfl
    simp [result?, hleft, hright, hlength, Ty.isNumeric]

/-- Operands that are combined are combined as words. -/
theorem Note.adds_of_combined? {op : BinaryOp} (h : Shape.combined? op left right = some shape) :
    (⟨shape, some (left, right)⟩ : Note).Adds Shape.concatLength := by
  rintro _ ⟨⟩ hty
  rcases Shape.combined?_cases h with ⟨-, -, hnumber, -⟩ | ⟨-, -, -, rfl⟩
  · exact absurd hty (Ty.ne_string_of_isNumeric hnumber)
  · rfl

theorem Shape.resolved_of_combined? {op : BinaryOp}
    (h : Shape.combined? op left right = some shape) :
    left.ty.isResolved ∧ right.ty.isResolved ∧ shape.Proper := by
  rcases combined?_cases h with ⟨hleft, hright, hnumber, rfl⟩ | ⟨-, hleft, hright, rfl⟩
  · exact ⟨Ty.isResolved_of_isNumeric hleft, Ty.isResolved_of_isNumeric hright,
      proper_number hnumber⟩
  · rw [hleft, hright]
    exact ⟨rfl, rfl, by simp, by simp [Ty.isNumeric]⟩

theorem Expr.proper_shape (henv : env.Proper) (e : Expr) (h : e.Agrees env scope)
    (hty : e.ty.isResolved) : e.shape.Proper := by
  have hbound : ∀ name, (env.shape ⟨name, scope⟩).ty.isResolved →
    (env.shape ⟨name, scope⟩).Proper :=
    fun name hname => henv.shapes _ (Environment.contains_of_isResolved hname)
  cases e with
  | constant value shape =>
    cases value <;> rw [Agrees] at h <;> subst h <;>
      exact ⟨by simp [Expr.shape], by simp [Expr.shape, Ty.isNumeric]⟩
  | var name shape =>
    rw [Agrees] at h
    subst h
    exact hbound name hty
  | element name index shape =>
    obtain ⟨-, -, rfl⟩ := h
    exact ⟨(hbound name hty).determined, fun _ => rfl⟩
  | binary op lhs rhs shape => exact (Shape.resolved_of_combined? h.2.2).2.2
  | negate operand shape =>
    obtain ⟨hoperand, hnumeric, rfl⟩ := h
    exact operand.proper_shape henv hoperand (Ty.isResolved_of_isNumeric hnumeric)
  | call name args ty => exact Shape.proper_number (henv.returns name ty h.1)

mutual

theorem Expr.proper_notes (henv : env.Proper) (e : Expr) (h : e.Agrees env scope)
    (hty : e.ty.isResolved) : ∀ note ∈ e.notes, note.Proper := by
  have hshape := e.proper_shape henv h hty
  cases e with
  | constant value shape => exact List.forall_mem_singleton.2 (.of_shape hshape)
  | var name shape => exact List.forall_mem_singleton.2 (.of_shape hshape)
  | element name index shape =>
    exact List.forall_mem_cons.2
      ⟨.of_shape hshape, index.proper_notes henv h.1 (Ty.isResolved_of_isNumeric h.2.1)⟩
  | binary op lhs rhs shape =>
    obtain ⟨hleft, hright, -⟩ := Shape.resolved_of_combined? h.2.2
    exact List.forall_mem_cons.2 ⟨⟨hshape, Note.adds_of_combined? h.2.2⟩, List.forall_mem_append.2
      ⟨lhs.proper_notes henv h.1 hleft, rhs.proper_notes henv h.2.1 hright⟩⟩
  | negate operand shape =>
    exact List.forall_mem_cons.2
      ⟨.of_shape hshape, operand.proper_notes henv h.1 (Ty.isResolved_of_isNumeric h.2.1)⟩
  | call name args ty =>
    exact List.forall_mem_cons.2 ⟨.of_shape hshape, proper_notesOfArguments henv args h.2⟩

theorem proper_notesOfArguments (henv : env.Proper) (args : List Expr)
    (h : argumentsAgree env scope args) : ∀ note ∈ notesOfArguments args, note.Proper := by
  cases args with
  | nil => simp [notesOfArguments]
  | cons arg args =>
    exact List.forall_mem_append.2 ⟨arg.proper_notes henv h.1 (Ty.isResolved_of_isNumeric h.2.1),
      proper_notesOfArguments henv args h.2.2⟩

end

theorem Expr.number?_of_isNumeric {e : Expr} (h : e.ty.isNumeric) : e.number? = some e :=
  if_pos h

mutual

/-- **The shapes of an expression are found again.** -/
theorem Expr.annotate_of_agrees (henv : env.Proper) (e : Expr) (h : e.Agrees env scope)
    (hty : e.ty.isResolved)
    (hadd : ∀ note ∈ e.notes, note.Adds add) : e.bare.annotate add env.ledger scope = some e := by
  cases e with
  | constant value shape =>
    cases value <;> rw [Expr.Agrees] at h <;> subst h <;>
      simp [Expr.bare, Literal.bare, Bare.Expr.annotate]
  | var name shape =>
    rw [Expr.Agrees] at h
    subst h
    have hbound : env.contains ⟨name, scope⟩ := Environment.contains_of_isResolved hty
    simp [Expr.bare, Bare.Expr.annotate, Environment.shape?_ledger hbound]
  | element name index shape =>
    obtain ⟨hindex, hnumeric, rfl⟩ := h
    have hbound : env.contains ⟨name, scope⟩ := Environment.contains_of_isResolved hty
    have hfound := index.annotate_of_agrees henv hindex (Ty.isResolved_of_isNumeric hnumeric)
      (List.forall_mem_cons.1 hadd).2
    simp [Expr.bare, Bare.Expr.annotate, hfound, Expr.number?_of_isNumeric hnumeric,
      Environment.shape?_ledger hbound]
  | binary op lhs rhs shape =>
    obtain ⟨hleft, hright, hshape⟩ := h
    obtain ⟨hleftTy, hrightTy, -⟩ := Shape.resolved_of_combined? hshape
    obtain ⟨hsum, hparts⟩ := List.forall_mem_cons.1 hadd
    obtain ⟨hleftAdd, hrightAdd⟩ := List.forall_mem_append.1 hparts
    simp [Expr.bare, Bare.Expr.annotate, lhs.annotate_of_agrees henv hleft hleftTy hleftAdd,
      rhs.annotate_of_agrees henv hright hrightTy hrightAdd, Shape.result?_of_combined? hshape hsum]
  | negate operand shape =>
    obtain ⟨hoperand, hnumeric, rfl⟩ := h
    have hresolved := Ty.isResolved_of_isNumeric hnumeric
    have hlength : operand.shape.length = 0 :=
      (operand.proper_shape henv hoperand hresolved).length hnumeric
    have hshape : (⟨operand.ty, 0⟩ : Shape) = operand.shape := by rw [← hlength]; rfl
    simp [Expr.bare, Bare.Expr.annotate,
      operand.annotate_of_agrees henv hoperand hresolved (List.forall_mem_cons.1 hadd).2,
      Expr.number?_of_isNumeric hnumeric, hshape]
  | call name args ty =>
    have hreturn : env.ledger.return? name = some ty := h.1
    simp [Expr.bare, Bare.Expr.annotate, hreturn,
      annotateArguments_of_agree henv args h.2 (List.forall_mem_cons.1 hadd).2]

theorem annotateArguments_of_agree (henv : env.Proper) (args : List Expr)
    (h : argumentsAgree env scope args) (hadd : ∀ note ∈ notesOfArguments args, note.Adds add) :
    annotateArguments add env.ledger scope (bareArguments args) = some args := by
  cases args with
  | nil => rfl
  | cons arg args =>
    obtain ⟨harg, hnumeric, hargs⟩ := h
    obtain ⟨hfirst, hrest⟩ := List.forall_mem_append.1 hadd
    have hfound := arg.annotate_of_agrees henv harg (Ty.isResolved_of_isNumeric hnumeric) hfirst
    simp [bareArguments, annotateArguments, hfound, Expr.number?_of_isNumeric hnumeric,
      annotateArguments_of_agree henv args hargs hrest]

end

/-! ### Statements -/

theorem Assignment.proper_after (henv : env.Proper) (a : Assignment) (h : a.Agrees env scope) :
    (a.after env scope).Proper := by
  obtain ⟨hvalue, htarget⟩ := h
  unfold after
  split
  · next name shape heq =>
      rw [heq] at htarget
      obtain ⟨hty, rfl, -⟩ := htarget
      exact henv.bind _ (a.value.proper_shape henv hvalue hty)
  · exact henv

mutual

theorem Stmt.proper_after {env : Environment} {scope : Scope} (henv : env.Proper) (st : Stmt)
    (h : st.Agrees env scope) : (st.after env scope).Proper := by
  cases st with
  | assign a => exact a.proper_after henv h
  | array ty name size => exact henv.bind _ (Shape.proper_number h.2.2)
  | ifThen condition body rest =>
    exact rest.proper_after (proper_afterAll henv body h.2.2.1) h.2.2.2
  | whileLoop condition body => exact proper_afterAll henv body h.2.2
  | forLoop init bound body => exact proper_afterAll (init.proper_after henv h.1) body h.2.2.2.2.2
  | subroutine name params body ty =>
    exact proper_afterAll (henv.enter name h.2.1 h.2.2.1) body h.2.2.2
  | _ => exact henv

theorem proper_afterAll {env : Environment} {scope : Scope} (henv : env.Proper) (sts : List Stmt)
    (h : allAgree env scope sts) : (afterAll env scope sts).Proper := by
  cases sts with
  | nil => exact henv
  | cons st rest => exact proper_afterAll (st.proper_after henv h.1) rest h.2

theorem ElsePart.proper_after {env : Environment} {scope : Scope} (henv : env.Proper)
    (part : ElsePart) (h : part.Agrees env scope) : (part.after env scope).Proper := by
  cases part with
  | none => exact henv
  | body body => exact proper_afterAll henv body h
  | elseIf condition body rest =>
    exact rest.proper_after (proper_afterAll henv body h.2.2.1) h.2.2.2

end

theorem Target.proper_notes (henv : env.Proper) (target : Target) (h : target.Agrees env scope) :
    (∀ note ∈ target.notes, note.Proper) ∧ (⟨target.ty, 0⟩ : Shape).Proper := by
  cases target with
  | var name shape =>
    obtain ⟨hbound, rfl⟩ := h
    have hproper := henv.shapes _ hbound
    exact ⟨List.forall_mem_singleton.2 (.of_shape hproper), hproper.determined, fun _ => rfl⟩
  | element name index ty =>
    obtain ⟨hbound, hindex, hnumeric, rfl⟩ := h
    have hproper : (⟨(env.shape ⟨name, scope⟩).ty, 0⟩ : Shape).Proper :=
      ⟨(henv.shapes _ hbound).determined, fun _ => rfl⟩
    have hindexNotes := index.proper_notes henv hindex (Ty.isResolved_of_isNumeric hnumeric)
    exact ⟨List.forall_mem_cons.2 ⟨.of_shape hproper, hindexNotes⟩, hproper⟩

theorem Assignment.proper_notes (henv : env.Proper) (a : Assignment) (h : a.Agrees env scope) :
    ∀ note ∈ a.notes, note.Proper := by
  obtain ⟨target, value, ty⟩ := a
  obtain ⟨hvalue, htarget⟩ := h
  dsimp only at hvalue htarget
  cases target with
  | var name shape =>
    obtain ⟨hty, hshape, rfl⟩ := htarget
    have hproper := value.proper_shape henv hvalue hty
    rw [← hshape] at hproper
    refine List.forall_mem_cons.2 ⟨.of_shape ⟨Ty.isResolved_iff.1 hty, fun _ => rfl⟩,
      List.forall_mem_cons.2 ⟨.of_shape hproper, ?_⟩⟩
    exact value.proper_notes henv hvalue hty
  | element name index ty =>
    obtain ⟨hbound, hindex, hnumeric, hvalueNumeric, rfl, rfl⟩ := htarget
    obtain ⟨hplace, hty⟩ :=
      (Target.element name index (env.shape ⟨name, scope⟩).ty).proper_notes henv
      ⟨hbound, hindex, hnumeric, rfl⟩
    refine List.forall_mem_cons.2 ⟨.of_shape hty, List.forall_mem_append.2 ⟨hplace, ?_⟩⟩
    exact value.proper_notes henv hvalue (Ty.isResolved_of_isNumeric hvalueNumeric)

mutual

theorem Stmt.proper_notes {env : Environment} {scope : Scope} (henv : env.Proper) (st : Stmt)
    (h : st.Agrees env scope) : ∀ note ∈ st.notes, note.Proper := by
  cases st with
  | expr e => exact e.proper_notes henv h.1 h.2
  | assign a => exact a.proper_notes henv h
  | array ty name size =>
    obtain ⟨hsize, hnumeric, hty⟩ := h
    have hsizeNotes := size.proper_notes henv hsize (Ty.isResolved_of_isNumeric hnumeric)
    exact List.forall_mem_cons.2 ⟨.of_shape (Shape.proper_number hty), hsizeNotes⟩
  | output e => exact e.proper_notes henv h.1 h.2
  | input target ty =>
    obtain ⟨htarget, rfl⟩ := h
    obtain ⟨hnotes, hty⟩ := target.proper_notes henv htarget
    exact List.forall_mem_cons.2 ⟨.of_shape hty, hnotes⟩
  | ifThen condition body rest =>
    obtain ⟨hcondition, hnumeric, hbody, hrest⟩ := h
    have htest := condition.proper_notes henv hcondition (Ty.isResolved_of_isNumeric hnumeric)
    have hothers := rest.proper_notes (proper_afterAll henv body hbody) hrest
    exact List.forall_mem_append.2
      ⟨htest, List.forall_mem_append.2 ⟨proper_notesAll henv body hbody, hothers⟩⟩
  | whileLoop condition body =>
    obtain ⟨hcondition, hnumeric, hbody⟩ := h
    have htest := condition.proper_notes henv hcondition (Ty.isResolved_of_isNumeric hnumeric)
    exact List.forall_mem_append.2 ⟨htest, proper_notesAll henv body hbody⟩
  | forLoop init bound body =>
    obtain ⟨hinit, -, -, hbound, hnumeric, hbody⟩ := h
    have hafter := init.proper_after henv hinit
    have hlimit := bound.proper_notes hafter hbound (Ty.isResolved_of_isNumeric hnumeric)
    exact List.forall_mem_append.2
      ⟨init.proper_notes henv hinit,
        List.forall_mem_append.2 ⟨hlimit, proper_notesAll hafter body hbody⟩⟩
  | subroutine name params body ty =>
    obtain ⟨-, hty, hparams, hbody⟩ := h
    refine List.forall_mem_cons.2 ⟨.of_shape (Shape.proper_number hty), List.forall_mem_append.2
      ⟨List.forall_mem_map.2 fun p hp => .of_shape (Shape.proper_number (hparams p hp)), ?_⟩⟩
    exact proper_notesAll (henv.enter name hty hparams) body hbody
  | ret e => exact e.proper_notes henv h.2.1 h.2.2

theorem proper_notesAll {env : Environment} {scope : Scope} (henv : env.Proper) (sts : List Stmt)
    (h : allAgree env scope sts) : ∀ note ∈ notesAll sts, note.Proper := by
  cases sts with
  | nil => simp [notesAll]
  | cons st rest =>
    exact List.forall_mem_append.2
      ⟨st.proper_notes henv h.1, proper_notesAll (st.proper_after henv h.1) rest h.2⟩

theorem ElsePart.proper_notes {env : Environment} {scope : Scope} (henv : env.Proper)
    (part : ElsePart) (h : part.Agrees env scope) : ∀ note ∈ part.notes, note.Proper := by
  cases part with
  | none => simp [ElsePart.notes]
  | body body => exact proper_notesAll henv body h
  | elseIf condition body rest =>
    obtain ⟨hcondition, hnumeric, hbody, hrest⟩ := h
    have htest := condition.proper_notes henv hcondition (Ty.isResolved_of_isNumeric hnumeric)
    have hothers := rest.proper_notes (proper_afterAll henv body hbody) hrest
    exact List.forall_mem_append.2
      ⟨htest, List.forall_mem_append.2 ⟨proper_notesAll henv body hbody, hothers⟩⟩

end

theorem Expr.annotate_number (henv : env.Proper) {e : Expr} (h : e.Agrees env scope)
    (hty : e.ty.isNumeric) (hadd : ∀ note ∈ e.notes, note.Adds add) :
    e.bare.annotate add env.ledger scope = some e ∧ e.number? = some e :=
  ⟨e.annotate_of_agrees henv h (Ty.isResolved_of_isNumeric hty) hadd, number?_of_isNumeric hty⟩

theorem Target.annotate_of_agrees (henv : env.Proper) (target : Target)
    (h : target.Agrees env scope) (hadd : ∀ note ∈ target.notes, note.Adds add) :
    target.bare.annotate add env.ledger scope = some target := by
  cases target with
  | var name shape =>
    obtain ⟨hbound, rfl⟩ := h
    simp [Target.bare, Bare.Target.annotate, Environment.shape?_ledger hbound]
  | element name index ty =>
    obtain ⟨hbound, hindex, hnumeric, rfl⟩ := h
    simp [Target.bare, Bare.Target.annotate, Environment.shape?_ledger hbound,
      index.annotate_number henv hindex hnumeric (List.forall_mem_cons.1 hadd).2]

theorem Assignment.annotate_of_agrees (henv : env.Proper) (a : Assignment) (h : a.Agrees env scope)
    (hadd : ∀ note ∈ a.notes, note.Adds add) :
    a.target.bare.annotateStore add env.ledger scope a.value.bare =
    some (a, (a.after env scope).ledger) := by
  obtain ⟨target, value, ty⟩ := a
  obtain ⟨hvalue, htarget⟩ := h
  obtain ⟨htargetAdd, hvalueAdd⟩ := List.forall_mem_append.1 (List.forall_mem_cons.1 hadd).2
  dsimp only at hvalue htarget
  cases target with
  | var name shape =>
    obtain ⟨hty, rfl, rfl⟩ := htarget
    simp [Target.bare, Bare.Target.annotateStore,
      value.annotate_of_agrees henv hvalue hty hvalueAdd, after, Environment.ledger_bind]
  | element name index ty =>
    obtain ⟨hbound, hindex, hnumeric, hvalueNumeric, rfl, rfl⟩ := htarget
    simp [Target.bare, Bare.Target.annotateStore, Environment.shape?_ledger hbound,
      index.annotate_number henv hindex hnumeric (List.forall_mem_cons.1 htargetAdd).2,
      value.annotate_number henv hvalue hvalueNumeric hvalueAdd, after]

mutual

/-- **The shapes of a statement are found again**, and what is written down is what the environment
holds. -/
theorem Stmt.annotate_of_agrees {env : Environment} {scope : Scope} (henv : env.Proper) (st : Stmt)
    (h : st.Agrees env scope) (hadd : ∀ note ∈ st.notes, note.Adds add) :
    st.bare.annotate add env.ledger scope = some (st, (st.after env scope).ledger) := by
  cases st with
  | expr e => simp [Stmt.bare, Bare.Stmt.annotate, e.annotate_of_agrees henv h.1 h.2 hadd,
    Stmt.after]
  | assign a => simp [Stmt.bare, Bare.Stmt.annotate, a.annotate_of_agrees henv h hadd, Stmt.after]
  | array ty name size =>
    obtain ⟨hsize, hnumeric, -⟩ := h
    simp [Stmt.bare, Bare.Stmt.annotate, Stmt.after, Environment.ledger_bind,
      size.annotate_number henv hsize hnumeric (List.forall_mem_cons.1 hadd).2]
  | output e =>
    simp [Stmt.bare, Bare.Stmt.annotate, e.annotate_of_agrees henv h.1 h.2 hadd, Stmt.after]
  | input target ty =>
    obtain ⟨htarget, rfl⟩ := h
    simp [Stmt.bare, Bare.Stmt.annotate, Stmt.after,
      target.annotate_of_agrees henv htarget (List.forall_mem_cons.1 hadd).2]
  | ifThen condition body rest =>
    obtain ⟨hcondition, hnumeric, hbody, hrest⟩ := h
    obtain ⟨htest, hadd⟩ := List.forall_mem_append.1 hadd
    obtain ⟨hbodyAdd, hrestAdd⟩ := List.forall_mem_append.1 hadd
    simp [Stmt.bare, Bare.Stmt.annotate, condition.annotate_number henv hcondition hnumeric htest,
      annotateAll_of_agree henv body hbody hbodyAdd,
      rest.annotate_of_agrees (proper_afterAll henv body hbody) hrest hrestAdd, Stmt.after]
  | whileLoop condition body =>
    obtain ⟨hcondition, hnumeric, hbody⟩ := h
    obtain ⟨htest, hbodyAdd⟩ := List.forall_mem_append.1 hadd
    simp [Stmt.bare, Bare.Stmt.annotate, condition.annotate_number henv hcondition hnumeric htest,
      annotateAll_of_agree henv body hbody hbodyAdd, Stmt.after]
  | forLoop init bound body =>
    obtain ⟨hinit, -, -, hbound, hnumeric, hbody⟩ := h
    have hafter := init.proper_after henv hinit
    obtain ⟨hinitAdd, hadd⟩ := List.forall_mem_append.1 hadd
    obtain ⟨hboundAdd, hbodyAdd⟩ := List.forall_mem_append.1 hadd
    simp [Stmt.bare, Bare.Stmt.annotate, init.annotate_of_agrees henv hinit hinitAdd,
      bound.annotate_number hafter hbound hnumeric hboundAdd,
      annotateAll_of_agree hafter body hbody hbodyAdd, Stmt.after]
  | subroutine name params body ty =>
    obtain ⟨-, hty, hparams, hbody⟩ := h
    simp [Stmt.bare, Bare.Stmt.annotate, ← Environment.ledger_enter,
      annotateAll_of_agree (henv.enter name hty hparams) body hbody
      (List.forall_mem_append.1 hadd).2, Stmt.after]
  | ret e => simp [Stmt.bare, Bare.Stmt.annotate, e.annotate_of_agrees henv h.2.1 h.2.2 hadd,
    Stmt.after]

theorem annotateAll_of_agree {env : Environment} {scope : Scope} (henv : env.Proper)
    (sts : List Stmt) (h : allAgree env scope sts) (hadd : ∀ note ∈ notesAll sts, note.Adds add) :
    annotateAll add env.ledger scope (bareAll sts) =
    some (sts, (afterAll env scope sts).ledger) := by
  cases sts with
  | nil => rfl
  | cons st rest =>
    obtain ⟨hfirst, hrest⟩ := List.forall_mem_append.1 hadd
    simp [bareAll, annotateAll, st.annotate_of_agrees henv h.1 hfirst,
      annotateAll_of_agree (st.proper_after henv h.1) rest h.2 hrest, afterAll]

theorem ElsePart.annotate_of_agrees {env : Environment} {scope : Scope} (henv : env.Proper)
    (part : ElsePart) (h : part.Agrees env scope) (hadd : ∀ note ∈ part.notes, note.Adds add) :
    part.bare.annotate add env.ledger scope = some (part, (part.after env scope).ledger) := by
  cases part with
  | none => rfl
  | body body =>
    simp [ElsePart.bare, Bare.ElsePart.annotate, annotateAll_of_agree henv body h hadd,
      ElsePart.after]
  | elseIf condition body rest =>
    obtain ⟨hcondition, hnumeric, hbody, hrest⟩ := h
    obtain ⟨htest, hadd⟩ := List.forall_mem_append.1 hadd
    obtain ⟨hbodyAdd, hrestAdd⟩ := List.forall_mem_append.1 hadd
    simp [ElsePart.bare, Bare.ElsePart.annotate,
      condition.annotate_number henv hcondition hnumeric htest,
      annotateAll_of_agree henv body hbody hbodyAdd,
      rest.annotate_of_agrees (proper_afterAll henv body hbody) hrest hrestAdd, ElsePart.after]

end

/-! ### Which sums are found -/

theorem Expr.number?_eq_some {e e' : Expr} : e.number? = some e' ↔ e.ty.isNumeric ∧ e = e' := by
  simp [number?]

theorem Note.adds_of_result? {op : BinaryOp} (h : Shape.result? add op left right = some shape) :
    (⟨shape, some (left, right)⟩ : Note).Adds add := by
  rintro _ ⟨⟩ hty
  unfold Shape.result? at h
  split at h
  · -- Numbers give a number.
    rw [← Option.some.inj h] at hty
    dsimp only at hty
    split at hty <;> cases hty
  · split at h
    · rw [← Option.some.inj h]
    · cases h

mutual

theorem Bare.Expr.adds_of_annotate {l : Ledger} {scope : Scope} (b : Bare.Expr)
    {e : Pseudocode.Expr}
    (h : b.annotate add l scope = some e) : ∀ note ∈ e.notes, note.Adds add := by
  cases b with
  | element name index =>
    simp only [Bare.Expr.annotate, Option.bind_eq_bind, Option.bind_eq_some_iff,
      Expr.number?_eq_some, Option.pure_def, Option.some.injEq] at h
    obtain ⟨_, hindex, _, ⟨-, rfl⟩, _, -, rfl⟩ := h
    exact List.forall_mem_cons.2 ⟨nofun, index.adds_of_annotate hindex⟩
  | binary op lhs rhs =>
    simp only [Bare.Expr.annotate, Option.bind_eq_bind, Option.bind_eq_some_iff, Option.pure_def,
      Option.some.injEq] at h
    obtain ⟨left, hleft, right, hright, shape, hshape, rfl⟩ := h
    exact List.forall_mem_cons.2 ⟨Note.adds_of_result? hshape,
      List.forall_mem_append.2 ⟨lhs.adds_of_annotate hleft, rhs.adds_of_annotate hright⟩⟩
  | negate operand =>
    simp only [Bare.Expr.annotate, Option.bind_eq_bind, Option.bind_eq_some_iff,
      Expr.number?_eq_some, Option.pure_def, Option.some.injEq] at h
    obtain ⟨_, hoperand, _, ⟨-, rfl⟩, rfl⟩ := h
    exact List.forall_mem_cons.2 ⟨nofun, operand.adds_of_annotate hoperand⟩
  | call name args =>
    simp only [Bare.Expr.annotate, Option.bind_eq_bind, Option.bind_eq_some_iff, Option.pure_def,
      Option.some.injEq] at h
    obtain ⟨_, -, _, hargs, rfl⟩ := h
    exact List.forall_mem_cons.2 ⟨nofun, adds_of_annotateArguments args hargs⟩
  | var name =>
    obtain ⟨shape, -, rfl⟩ := Option.map_eq_some_iff.1 h
    exact List.forall_mem_singleton.2 nofun
  | _ =>
    obtain rfl := Option.some.inj h
    exact List.forall_mem_singleton.2 nofun

theorem adds_of_annotateArguments {l : Ledger} {scope : Scope} (bs : List Bare.Expr)
    {args : List Expr}
    (h : annotateArguments add l scope bs = some args) :
    ∀ note ∈ notesOfArguments args, note.Adds add := by
  cases bs with
  | nil =>
    obtain rfl := Option.some.inj h
    exact nofun
  | cons b bs =>
    simp only [annotateArguments, Option.bind_eq_bind, Option.bind_eq_some_iff,
      Expr.number?_eq_some, Option.pure_def, Option.some.injEq] at h
    obtain ⟨_, harg, _, ⟨-, rfl⟩, _, hargs, rfl⟩ := h
    exact List.forall_mem_append.2 ⟨b.adds_of_annotate harg, adds_of_annotateArguments bs hargs⟩

end

theorem Bare.Target.adds_of_annotateStore {l l' : Ledger} {scope : Scope} {b : Bare.Target}
    {value : Bare.Expr}
    {a : Assignment} (h : b.annotateStore add l scope value = some (a, l')) :
    ∀ note ∈ a.notes, note.Adds add := by
  refine List.forall_mem_cons.2 ⟨nofun, List.forall_mem_append.2 ?_⟩
  cases b with
  | var name =>
    simp only [annotateStore, Option.bind_eq_bind, Option.bind_eq_some_iff, Option.pure_def,
      Option.some.injEq, Prod.mk.injEq] at h
    obtain ⟨e, he, rfl, -⟩ := h
    exact ⟨List.forall_mem_singleton.2 nofun, value.adds_of_annotate he⟩
  | element name index =>
    simp only [annotateStore, Option.bind_eq_bind, Option.bind_eq_some_iff, Expr.number?_eq_some,
      Option.pure_def, Option.some.injEq, Prod.mk.injEq] at h
    obtain ⟨_, -, _, hindex, _, ⟨-, rfl⟩, _, hvalue, _, ⟨-, rfl⟩, rfl, -⟩ := h
    exact ⟨List.forall_mem_cons.2 ⟨nofun, index.adds_of_annotate hindex⟩,
      value.adds_of_annotate hvalue⟩

theorem Bare.Target.adds_of_annotate {l : Ledger} {scope : Scope} {b : Bare.Target}
    {target : Pseudocode.Target}
    (h : b.annotate add l scope = some target) : ∀ note ∈ target.notes, note.Adds add := by
  cases b with
  | var name =>
    obtain ⟨shape, -, rfl⟩ := Option.map_eq_some_iff.1 h
    exact List.forall_mem_singleton.2 nofun
  | element name index =>
    simp only [annotate, Option.bind_eq_bind, Option.bind_eq_some_iff, Expr.number?_eq_some,
      Option.pure_def, Option.some.injEq] at h
    obtain ⟨_, -, _, hindex, _, ⟨-, rfl⟩, rfl⟩ := h
    exact List.forall_mem_cons.2 ⟨nofun, index.adds_of_annotate hindex⟩

mutual

/-- **Whatever the walk finds, it has added lengths as it was told to.** -/
theorem Bare.Stmt.adds_of_annotate {l l' : Ledger} {scope : Scope} (b : Bare.Stmt)
    {st : Pseudocode.Stmt}
    (h : b.annotate add l scope = some (st, l')) : ∀ note ∈ st.notes, note.Adds add := by
  cases b <;> simp only [Bare.Stmt.annotate, Option.bind_eq_bind, Option.bind_eq_some_iff,
    Expr.number?_eq_some, Prod.exists, Option.pure_def, Option.some.injEq, Prod.mk.injEq] at h
  case expr e =>
    obtain ⟨_, he, rfl, -⟩ := h
    exact e.adds_of_annotate he
  case assign target value =>
    obtain ⟨_, _, ha, rfl, -⟩ := h
    exact Bare.Target.adds_of_annotateStore ha
  case array ty name size =>
    obtain ⟨_, hsize, _, ⟨-, rfl⟩, rfl, -⟩ := h
    exact List.forall_mem_cons.2 ⟨nofun, size.adds_of_annotate hsize⟩
  case output e =>
    obtain ⟨_, he, rfl, -⟩ := h
    exact e.adds_of_annotate he
  case input target =>
    obtain ⟨_, htarget, rfl, -⟩ := h
    exact List.forall_mem_cons.2 ⟨nofun, Bare.Target.adds_of_annotate htarget⟩
  case ifThen condition body rest =>
    obtain ⟨_, htest, _, ⟨-, rfl⟩, _, _, hbody, _, _, hrest, rfl, -⟩ := h
    exact List.forall_mem_append.2 ⟨condition.adds_of_annotate htest,
      List.forall_mem_append.2 ⟨adds_of_annotateAll body hbody, rest.adds_of_annotate hrest⟩⟩
  case whileLoop condition body =>
    obtain ⟨_, htest, _, ⟨-, rfl⟩, _, _, hbody, rfl, -⟩ := h
    exact List.forall_mem_append.2
      ⟨condition.adds_of_annotate htest, adds_of_annotateAll body hbody⟩
  case forLoop counter first bound body =>
    obtain ⟨_, _, hinit, _, hbound, _, ⟨-, rfl⟩, _, _, hbody, rfl, -⟩ := h
    exact List.forall_mem_append.2 ⟨Bare.Target.adds_of_annotateStore hinit,
      List.forall_mem_append.2 ⟨bound.adds_of_annotate hbound, adds_of_annotateAll body hbody⟩⟩
  case subroutine name params body ty =>
    obtain ⟨_, _, hbody, rfl, -⟩ := h
    exact List.forall_mem_cons.2 ⟨nofun, List.forall_mem_append.2
      ⟨List.forall_mem_map.2 fun _ _ => nofun, adds_of_annotateAll body hbody⟩⟩
  case ret e =>
    obtain ⟨_, he, rfl, -⟩ := h
    exact e.adds_of_annotate he

theorem adds_of_annotateAll {l l' : Ledger} {scope : Scope} (bs : List Bare.Stmt) {sts : List Stmt}
    (h : annotateAll add l scope bs = some (sts, l')) : ∀ note ∈ notesAll sts, note.Adds add := by
  cases bs with
  | nil =>
    obtain ⟨rfl, -⟩ := Prod.mk.inj (Option.some.inj h)
    exact nofun
  | cons b bs =>
    simp only [annotateAll, Option.bind_eq_bind, Option.bind_eq_some_iff, Prod.exists,
      Option.pure_def, Option.some.injEq, Prod.mk.injEq] at h
    obtain ⟨_, _, hfirst, _, _, hrest, rfl, -⟩ := h
    exact List.forall_mem_append.2 ⟨b.adds_of_annotate hfirst, adds_of_annotateAll bs hrest⟩

theorem Bare.ElsePart.adds_of_annotate {l l' : Ledger} {scope : Scope} (b : Bare.ElsePart)
    {part : Pseudocode.ElsePart} (h : b.annotate add l scope = some (part, l')) :
    ∀ note ∈ part.notes, note.Adds add := by
  cases b <;> simp only [Bare.ElsePart.annotate, Option.bind_eq_bind, Option.bind_eq_some_iff,
    Expr.number?_eq_some, Prod.exists, Option.pure_def, Option.some.injEq, Prod.mk.injEq] at h
  case none =>
    obtain ⟨rfl, -⟩ := h
    exact nofun
  case body body =>
    obtain ⟨_, _, hbody, rfl, -⟩ := h
    exact adds_of_annotateAll body hbody
  case elseIf condition body rest =>
    obtain ⟨_, htest, _, ⟨-, rfl⟩, _, _, hbody, _, _, hrest, rfl, -⟩ := h
    exact List.forall_mem_append.2 ⟨condition.adds_of_annotate htest,
      List.forall_mem_append.2 ⟨adds_of_annotateAll body hbody, rest.adds_of_annotate hrest⟩⟩

end

end

end Pseudocode
