import Pseudocode.Proofs.Lower.Functions

/-!
How long strings are.

An expression carries the length that its value was read with: for a variable, that of the last
assignment in the text.  But it is the assignment that a path has come through last that has made
the buffer of the variable, and that may be another one.  `Stmt.lengths` takes down which lengths
the assignments may have left in the variables behind a statement.  Conditions are not looked at:
every arm may be taken, and a loop may be run any number of times.

As many bytes are copied from a string as its length says, and they are all there if no assignment
that may have come last has left fewer.  `Program.copiesFit` asks this of every copy in a program,
and besides that no string variable is assigned to itself: its buffer may be resized before it is
copied.
-/

namespace Pseudocode

variable {more lengths₁ lengths₂ : Lengths}

/-! ### Lengths of variables -/

/-- The lengths that the assignments to each variable may have left. -/
abbrev Lengths := String → List Nat

namespace Lengths

/-- The lengths behind an assignment to a variable. -/
def assign (lengths : Lengths) (x : String) (left : List Nat) : Lengths :=
  fun y => if y = x then left else lengths y

/-- The lengths where two arms meet. -/
def join (lengths₁ lengths₂ : Lengths) : Lengths :=
  fun x => lengths₁ x ++ lengths₂ x

/-- The lengths where a loop begins that does this in every turn. -/
def around (lengths : Lengths) (turn : Lengths → Lengths) : Lengths :=
  lengths.join (turn lengths)

end Lengths

/-- What an assignment makes of the lengths. -/
def Assignment.lengths (a : Assignment) (lengths : Lengths) : Lengths :=
  match a.target with
  | .var x shape => lengths.assign x (if shape.ty = .string then [shape.length] else [])
  | .element .. => lengths

mutual

/-- The lengths behind a statement. -/
def Stmt.lengths (lengths : Lengths) : Stmt → Lengths
  | .assign a => a.lengths lengths
  | .array _ name _ => lengths.assign name []
  | .ifThen _ body rest => (lengthsAll lengths body).join (rest.lengths lengths)
  | .whileLoop _ body => lengthsAll (lengths.around fun lengths => lengthsAll lengths body) body
  | .forLoop init _ body =>
    let turn lengths := (Lower.counterStep init).lengths (lengthsAll lengths body)
    turn ((init.lengths lengths).around turn)
  | .ret _ => fun _ => []
  | _ => lengths

def lengthsAll (lengths : Lengths) : List Stmt → Lengths
  | [] => lengths
  | s :: rest => lengthsAll (s.lengths lengths) rest

def ElsePart.lengths (lengths : Lengths) : ElsePart → Lengths
  | .none => lengths
  | .body body => lengthsAll lengths body
  | .elseIf _ body rest => (lengthsAll lengths body).join (rest.lengths lengths)

end

/-! ### Copies -/

/-- Can so many bytes be copied from the value of an expression, and can its parts be copied? -/
def Expr.fits (lengths : Lengths) (n : Nat) : Expr → Bool
  | .var x _ => (lengths x).all (n ≤ ·)
  | .binary _ lhs rhs shape =>
    shape.ty != .string || (lhs.fits lengths (lhs.length - 1) && rhs.fits lengths rhs.length)
  | _ => true

/-- Is the expression this variable? -/
def Expr.isVar (x : String) : Expr → Bool
  | .var y _ => y == x
  | _ => false

/-- Can what is assigned be copied? -/
def Assignment.fits (lengths : Lengths) (a : Assignment) : Bool :=
  match a.target with
  | .var x shape => shape.ty != .string || (a.value.fits lengths shape.length && !a.value.isVar x)
  | .element .. => true

mutual

/-- Can all that is copied in a statement be copied? -/
def Stmt.fits (lengths : Lengths) : Stmt → Bool
  | .expr e => e.fits lengths 0
  | .assign a => a.fits lengths
  | .output e => e.fits lengths 0
  | .ifThen _ body rest => fitsAll lengths body && rest.fits lengths
  | .whileLoop _ body => fitsAll (lengths.around fun lengths => lengthsAll lengths body) body
  | .forLoop init _ body =>
    fitsAll ((init.lengths lengths).around fun lengths => (Lower.counterStep init).lengths
      (lengthsAll lengths body)) body
  | .ret e => e.fits lengths 0
  | _ => true

def fitsAll (lengths : Lengths) : List Stmt → Bool
  | [] => true
  | s :: rest => s.fits lengths && fitsAll (s.lengths lengths) rest

def ElsePart.fits (lengths : Lengths) : ElsePart → Bool
  | .none => true
  | .body body => fitsAll lengths body
  | .elseIf _ body rest => fitsAll lengths body && rest.fits lengths

end

/-- Can all be copied that is copied in a program and in the subroutines that it declares? -/
def Program.copiesFit (p : Program) : Bool :=
  fitsAll (fun _ => []) p && (routinesAll p).all fun (_, body) => fitsAll (fun _ => []) body

/-! ### Lengths in an expression -/

/-- Is the value of the expression a string of so many bytes at least?  For a variable this depends
on the sizes that have been left in it. -/
def Expr.Spans (lengths : Lengths) (n : Nat) : Expr → Prop
  | .var x _ => ∀ size ∈ lengths x, n ≤ size
  | e => n ≤ e.length

mutual

/-- Is a constant string as long as the expression says, and is a concatenation?  If it is looked at
where copies read, then the operands of a concatenation also have the bytes that are copied from
them: all of the right one, and all but the last one of the left. -/
def Expr.Copies (reads : Prop) (lengths : Lengths) : Expr → Prop
  | .constant (.string text) shape => shape.length = text.utf8ByteSize + 1
  | .constant (.int _) _ => True
  | .constant (.double _) _ => True
  | .var .. => True
  | .element _ index _ => index.Copies reads lengths
  | .binary _ lhs rhs shape => lhs.Copies reads lengths ∧ rhs.Copies reads lengths ∧
      (shape.ty = .string → shape.length = Shape.concatLength lhs.length rhs.length ∧
        (reads → lhs.Spans lengths (lhs.length - 1) ∧ rhs.Spans lengths rhs.length))
  | .negate e _ => e.Copies reads lengths
  | .call _ args _ => copiesAll reads lengths args

def copiesAll (reads : Prop) (lengths : Lengths) : List Expr → Prop
  | [] => True
  | e :: es => e.Copies reads lengths ∧ copiesAll reads lengths es

end

mutual

/-- In an expression that is no string nothing is copied. -/
theorem Expr.copies_of_numeric {reads : Prop} {lengths : Lengths} {env : Environment}
    {scope : Scope} (e : Expr)
    (h : e.Agrees env scope) (hty : e.ty ≠ .string) : e.Copies reads lengths := by
  cases e with
  | constant value shape =>
    cases value with
    | int value => trivial
    | double value => trivial
    | string text =>
      have hshape : shape = ⟨.string, text.utf8ByteSize + 1⟩ := h
      exact absurd (congrArg Shape.ty hshape) hty
  | var name shape => trivial
  | element name index shape => exact index.copies_of_numeric h.1 (Ty.ne_string_of_isNumeric h.2.1)
  | binary op lhs rhs shape =>
    obtain ⟨hlhs, hrhs, hshape⟩ := h
    rcases Shape.combined?_cases hshape with ⟨hl, hr, -, -⟩ | ⟨-, -, -, heq⟩
    · exact ⟨lhs.copies_of_numeric hlhs (Ty.ne_string_of_isNumeric hl),
        rhs.copies_of_numeric hrhs (Ty.ne_string_of_isNumeric hr),
        fun hstring => absurd hstring hty⟩
    · exact absurd (congrArg Shape.ty heq) hty
  | negate operand shape => exact operand.copies_of_numeric h.1 (Ty.ne_string_of_isNumeric h.2.1)
  | call name args ty => exact copiesAll_of_agree args h.2

theorem copiesAll_of_agree {reads : Prop} {lengths : Lengths} {env : Environment} {scope : Scope}
    (es : List Expr) (h : argumentsAgree env scope es) : copiesAll reads lengths es := by
  cases es with
  | nil => trivial
  | cons e es =>
    exact ⟨e.copies_of_numeric h.1 (Ty.ne_string_of_isNumeric h.2.1), copiesAll_of_agree es h.2.2⟩

end

/-- **Where the shapes of an expression agree, its constants and concatenations are as long as they
say.** -/
theorem Expr.copies_of_agrees {reads : Prop} {lengths : Lengths} {env : Environment} {scope : Scope}
    (e : Expr)
    (h : e.Agrees env scope) {n : Nat} (hn : n ≤ e.length) (hfits : reads → e.fits lengths n) :
    e.Copies reads lengths ∧ (reads → e.Spans lengths n) := by
  cases e with
  | constant value shape =>
    refine ⟨?_, fun _ => hn⟩
    cases value with
    | int value => trivial
    | double value => trivial
    | string text =>
      have hshape : shape = ⟨.string, text.utf8ByteSize + 1⟩ := h
      exact congrArg Shape.length hshape
  | var name shape =>
    refine ⟨trivial, fun hreads size hsize => ?_⟩
    have hall := hfits hreads
    rw [Expr.fits, List.all_eq_true] at hall
    exact of_decide_eq_true (hall size hsize)
  | element name index shape =>
    exact ⟨index.copies_of_numeric h.1 (Ty.ne_string_of_isNumeric h.2.1), fun _ => hn⟩
  | binary op lhs rhs shape =>
    obtain ⟨hlhs, hrhs, hshape⟩ := h
    refine ⟨?_, fun _ => hn⟩
    rcases Shape.combined?_cases hshape with ⟨hl, hr, hn, -⟩ | ⟨-, -, -, heq⟩
    · exact ⟨lhs.copies_of_numeric hlhs (Ty.ne_string_of_isNumeric hl),
        rhs.copies_of_numeric hrhs (Ty.ne_string_of_isNumeric hr),
        fun hstring => absurd hstring (Ty.ne_string_of_isNumeric hn)⟩
    · have hboth : reads → lhs.fits lengths (lhs.length - 1) ∧ rhs.fits lengths rhs.length := by
        intro hreads
        have hfit := hfits hreads
        rw [Expr.fits, heq] at hfit
        simpa using hfit
      obtain ⟨hcopyl, hspanl⟩ :=
        lhs.copies_of_agrees hlhs (Nat.sub_le _ _) fun hreads => (hboth hreads).1
      obtain ⟨hcopyr, hspanr⟩ :=
        rhs.copies_of_agrees hrhs (Nat.le_refl _) fun hreads => (hboth hreads).2
      refine ⟨hcopyl, hcopyr, fun _ => ⟨?_, fun hreads => ⟨hspanl hreads, hspanr hreads⟩⟩⟩
      rw [heq]
      rfl
  | negate operand shape =>
    exact ⟨operand.copies_of_numeric h.1 (Ty.ne_string_of_isNumeric h.2.1), fun _ => hn⟩
  | call name args ty => exact ⟨copiesAll_of_agree args h.2, fun _ => hn⟩

/-! ### Turns of a loop -/

namespace Lengths

/-- The first lengths are among the second or are further ones. -/
def Within (more lengths₁ lengths₂ : Lengths) : Prop :=
  ∀ x, lengths₁ x ⊆ lengths₂ x ++ more x

theorem Within.assign (h : Within more lengths₁ lengths₂) (x : String) (left : List Nat) :
    Within more (lengths₁.assign x left) (lengths₂.assign x left) := by
  intro y n hn
  unfold Lengths.assign at hn ⊢
  split at hn
  · next heq => simp [heq, hn]
  · next hne => simpa [hne] using h y hn

theorem Within.join {lengths₁' lengths₂' : Lengths} (h : Within more lengths₁ lengths₂)
    (h' : Within more lengths₁' lengths₂') :
    Within more (lengths₁.join lengths₁') (lengths₂.join lengths₂') := by
  intro x n hn
  have h₁ : n ∈ lengths₁ x → n ∈ lengths₂ x ++ more x := fun hn => h x hn
  have h₂ : n ∈ lengths₁' x → n ∈ lengths₂' x ++ more x := fun hn => h' x hn
  simp only [Lengths.join, List.mem_append] at hn h₁ h₂ ⊢
  tauto

end Lengths

theorem Assignment.lengths_within (a : Assignment) (h : Lengths.Within more lengths₁ lengths₂) :
    Lengths.Within more (a.lengths lengths₁) (a.lengths lengths₂) := by
  unfold Assignment.lengths
  cases a.target with
  | var x shape => exact h.assign x _
  | element => exact h

mutual

/-- What is left behind a statement comes from the statement itself, or was there before. -/
theorem Stmt.lengths_within (s : Stmt) {more lengths₁ lengths₂ : Lengths}
    (h : Lengths.Within more lengths₁ lengths₂) :
    Lengths.Within more (s.lengths lengths₁) (s.lengths lengths₂) := by
  cases s with
  | assign a => exact a.lengths_within h
  | array ty name size => exact h.assign name []
  | ifThen condition body rest => exact (lengthsAll_within body h).join (rest.lengths_within h)
  | whileLoop condition body =>
    exact lengthsAll_within body (h.join (lengthsAll_within body h))
  | forLoop init bound body =>
    have hinit := init.lengths_within h
    exact (Lower.counterStep init).lengths_within (lengthsAll_within body (hinit.join
      ((Lower.counterStep init).lengths_within (lengthsAll_within body hinit))))
  | ret e => exact fun x => by simp [Stmt.lengths]
  | expr e => exact h
  | output e => exact h
  | input target ty => exact h
  | subroutine name params body ty => exact h

theorem lengthsAll_within (body : List Stmt) {more lengths₁ lengths₂ : Lengths}
    (h : Lengths.Within more lengths₁ lengths₂) :
    Lengths.Within more (lengthsAll lengths₁ body) (lengthsAll lengths₂ body) := by
  cases body with
  | nil => exact h
  | cons s rest => exact lengthsAll_within rest (s.lengths_within h)

theorem ElsePart.lengths_within (part : ElsePart) {more lengths₁ lengths₂ : Lengths}
    (h : Lengths.Within more lengths₁ lengths₂) :
    Lengths.Within more (part.lengths lengths₁) (part.lengths lengths₂) := by
  cases part with
  | none => exact h
  | body body => exact lengthsAll_within body h
  | elseIf condition body rest => exact (lengthsAll_within body h).join (rest.lengths_within h)

end

/-- **Where a loop begins, all is taken down that a turn may leave.** -/
theorem Lengths.subset_around {turn : Lengths → Lengths}
    (hturn : ∀ {more lengths₁ lengths₂ : Lengths}, Within more lengths₁ lengths₂ →
      Within more (turn lengths₁) (turn lengths₂)) (lengths : Lengths) (x : String) :
    turn (lengths.around turn) x ⊆ lengths.around turn x := by
  have hwithin : Within (lengths.around turn) (lengths.around turn) lengths := fun y n hn =>
    List.mem_append_right _ hn
  intro n hn
  rcases List.mem_append.mp (hturn hwithin x hn) with hn | hn
  · exact List.mem_append_right _ hn
  · exact hn

end Pseudocode
