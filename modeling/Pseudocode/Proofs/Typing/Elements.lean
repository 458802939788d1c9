import Pseudocode.Proofs.Grammar.Complete.Statements
import Pseudocode.Proofs.Typing.Annotation

/-!
What the names of elements are bound to.

A program is gone through in the order of its text, and of every name it is known how it was bound
last in its scope: by a declaration of an array, by an assignment, or as a parameter.  `elementsAll`
lists what is known of the names of elements where they stand.

Reading a program looks only at whether such a name is bound.  So in every program that is read it
is bound, by whatever means, and a program with one that is not bound is rejected
(`elements_bound`).  It need not be an array (`elementOfNumber_accepted`).
-/

namespace Pseudocode

/-- How a name is bound. -/
inductive Binding where
  | array | variable | parameter
  deriving DecidableEq, Repr

/-- How the names of all scopes were bound last. -/
def Bindings : Type :=
  Symbol → Option Binding

/-- A name of which an element is taken: where it stands it was bound last like this, if at all. -/
structure ElementName where
  symbol : Symbol
  last? : Option Binding
  deriving DecidableEq, Repr

namespace Bindings

/-- No name is bound. -/
def none : Bindings :=
  fun _ => .none

/-- A name is bound. -/
def bind (b : Bindings) (symbol : Symbol) (how : Binding) : Bindings :=
  fun other => if other = symbol then some how else b other

/-- The parameters of a subroutine are bound in its scope. -/
def enter (b : Bindings) (name : String) (params : List Param) : Bindings :=
  params.foldl (fun b p => b.bind ⟨p.name, .subroutine name⟩ .parameter) b

/-- What is known of names of elements. -/
def elements (b : Bindings) (scope : Scope) (names : List String) : List ElementName :=
  names.map fun name => ⟨⟨name, scope⟩, b ⟨name, scope⟩⟩

end Bindings

/-! ### Through the text -/

namespace Bare

mutual

/-- The names of which an expression takes elements. -/
def Expr.indexed : Expr → List String
  | .element name index => name :: index.indexed
  | .binary _ lhs rhs => lhs.indexed ++ rhs.indexed
  | .negate operand => operand.indexed
  | .call _ args => indexedAll args
  | _ => []

def indexedAll : List Expr → List String
  | [] => []
  | arg :: args => arg.indexed ++ indexedAll args

end

def Target.indexed : Target → List String
  | .var _ => []
  | .element name index => name :: index.indexed

/-- An assignment binds a variable, but not an element. -/
def Target.bindings (b : Bindings) (scope : Scope) : Target → Bindings
  | .var name => b.bind ⟨name, scope⟩ .variable
  | .element .. => b

mutual

/-- How names are bound after a statement. -/
def Stmt.bindings (b : Bindings) (scope : Scope) : Stmt → Bindings
  | .assign target _ => target.bindings b scope
  | .array _ name _ => b.bind ⟨name, scope⟩ .array
  | .ifThen _ body rest => rest.bindings (bindingsAll b scope body) scope
  | .whileLoop _ body => bindingsAll b scope body
  | .forLoop counter _ _ body => bindingsAll (counter.bindings b scope) scope body
  | .subroutine name params body _ => bindingsAll (b.enter name params) (.subroutine name) body
  | _ => b

def bindingsAll (b : Bindings) (scope : Scope) : List Stmt → Bindings
  | [] => b
  | st :: rest => bindingsAll (st.bindings b scope) scope rest

def ElsePart.bindings (b : Bindings) (scope : Scope) : ElsePart → Bindings
  | .none => b
  | .body body => bindingsAll b scope body
  | .elseIf _ body rest => rest.bindings (bindingsAll b scope body) scope

end

mutual

/-- What is known of the names of elements in a statement. -/
def Stmt.elements (b : Bindings) (scope : Scope) : Stmt → List ElementName
  | .expr e => b.elements scope e.indexed
  | .assign target value => b.elements scope (target.indexed ++ value.indexed)
  | .array _ _ size => b.elements scope size.indexed
  | .output e => b.elements scope e.indexed
  | .input target => b.elements scope target.indexed
  | .ifThen condition body rest => b.elements scope condition.indexed ++ elementsAll b scope body ++
      rest.elements (bindingsAll b scope body) scope
  | .whileLoop condition body => b.elements scope condition.indexed ++ elementsAll b scope body
  | .forLoop counter first bound body => b.elements scope first.indexed ++
      (counter.bindings b scope).elements scope bound.indexed ++
      elementsAll (counter.bindings b scope) scope body
  | .subroutine name params body _ => elementsAll (b.enter name params) (.subroutine name) body
  | .ret e => b.elements scope e.indexed

def elementsAll (b : Bindings) (scope : Scope) : List Stmt → List ElementName
  | [] => []
  | st :: rest => st.elements b scope ++ elementsAll (st.bindings b scope) scope rest

def ElsePart.elements (b : Bindings) (scope : Scope) : ElsePart → List ElementName
  | .none => []
  | .body body => elementsAll b scope body
  | .elseIf condition body rest => b.elements scope condition.indexed ++ elementsAll b scope body ++
      rest.elements (bindingsAll b scope body) scope

end

end Bare

/-! ### Beside the environment -/

variable {env : Environment} {scope : Scope} {b : Bindings}

/-- The environment holds the names that are bound. -/
def Bindings.Follows (b : Bindings) (env : Environment) : Prop :=
  ∀ symbol, (b symbol).isSome = env.contains symbol

namespace Bindings.Follows

theorem start : Bindings.none.Follows {} := by
  intro symbol
  simp [Bindings.none, Environment.contains]

theorem bind (h : b.Follows env) (symbol : Symbol) (how : Binding) (shape : Shape) :
    (b.bind symbol how).Follows (env.bind symbol shape) := by
  intro other
  rw [Environment.contains_bind, Bindings.bind, ← h other]
  by_cases heq : other = symbol
  · simp [heq]
  · simp [heq, Ne.symm heq]

theorem enter (h : b.Follows env) (name : String) (params : List Param) (ty : Ty) :
    (b.enter name params).Follows (env.enter name params ty) := by
  unfold Bindings.enter Environment.enter
  have hstart : b.Follows (env.register name ty) := h
  clear h
  generalize env.register name ty = env' at hstart
  induction params generalizing b env' with
  | nil => exact hstart
  | cons p params ih => exact ih _ (hstart.bind _ _ _)

theorem assignment (h : b.Follows env) (a : Assignment) (scope : Scope) :
    (a.target.bare.bindings b scope).Follows (a.after env scope) := by
  unfold Assignment.after
  cases a.target with
  | var name shape => exact h.bind _ _ _
  | element name index ty => exact h

end Bindings.Follows

mutual

/-- A statement binds the same names on both sides. -/
theorem Stmt.follows_bindings {b : Bindings} {env : Environment} {scope : Scope} (h : b.Follows env)
    (st : Stmt) : (st.bare.bindings b scope).Follows (st.after env scope) := by
  cases st with
  | assign a => exact h.assignment a scope
  | array ty name size => exact h.bind _ _ _
  | ifThen condition body rest => exact rest.follows_bindings (follows_bindingsAll h body)
  | whileLoop condition body => exact follows_bindingsAll h body
  | forLoop init bound body => exact follows_bindingsAll (h.assignment init scope) body
  | subroutine name params body ty => exact follows_bindingsAll (h.enter name params ty) body
  | _ => exact h

theorem follows_bindingsAll {b : Bindings} {env : Environment} {scope : Scope} (h : b.Follows env)
    (sts : List Stmt) :
    (Bare.bindingsAll b scope (bareAll sts)).Follows (afterAll env scope sts) := by
  match sts with
  | [] => exact h
  | st :: rest => exact follows_bindingsAll (st.follows_bindings h) rest

theorem ElsePart.follows_bindings {b : Bindings} {env : Environment} {scope : Scope}
    (h : b.Follows env)
    (part : ElsePart) : (part.bare.bindings b scope).Follows (part.after env scope) := by
  cases part with
  | none => exact h
  | body body => exact follows_bindingsAll h body
  | elseIf condition body rest => exact rest.follows_bindings (follows_bindingsAll h body)

end

/-! ### Every name of an element is bound -/

mutual

/-- The names of which an expression takes elements are bound, since the expression has a type. -/
theorem Expr.contains_of_indexed (e : Expr) (h : e.Agrees env scope) (hty : e.ty.isResolved) :
    ∀ name ∈ e.bare.indexed, env.contains ⟨name, scope⟩ := by
  cases e with
  | constant value shape => cases value <;> simp [Expr.bare, Literal.bare, Bare.Expr.indexed]
  | var name shape => simp [Expr.bare, Bare.Expr.indexed]
  | element name index shape =>
    obtain ⟨hindex, hnumber, rfl⟩ := h
    intro other hother
    rcases List.mem_cons.1 hother with rfl | hother
    · exact Environment.contains_of_isResolved hty
    · exact index.contains_of_indexed hindex (Ty.isResolved_of_isNumeric hnumber) other hother
  | binary op lhs rhs shape =>
    obtain ⟨hlhs, hrhs, hshape⟩ := h
    have hparts := Shape.resolved_of_combined? hshape
    intro name hname
    rcases List.mem_append.1 hname with hname | hname
    · exact lhs.contains_of_indexed hlhs hparts.1 name hname
    · exact rhs.contains_of_indexed hrhs hparts.2.1 name hname
  | negate operand shape =>
    exact operand.contains_of_indexed h.1 (Ty.isResolved_of_isNumeric h.2.1)
  | call name args ty => exact contains_of_indexedAll args h.2

theorem contains_of_indexedAll (args : List Expr) (h : argumentsAgree env scope args) :
    ∀ name ∈ Bare.indexedAll (bareArguments args), env.contains ⟨name, scope⟩ := by
  match args with
  | [] => simp [bareArguments, Bare.indexedAll]
  | arg :: args =>
    intro name hname
    rcases List.mem_append.1 hname with hname | hname
    · exact arg.contains_of_indexed h.1 (Ty.isResolved_of_isNumeric h.2.1) name hname
    · exact contains_of_indexedAll args h.2.2 name hname

end

/-- All of these names of elements are bound. -/
def AllBound (names : List ElementName) : Prop :=
  ∀ name ∈ names, name.last?.isSome

theorem AllBound.append {names names' : List ElementName} (h : AllBound names)
    (h' : AllBound names') : AllBound (names ++ names') := by
  intro name hname
  rcases List.mem_append.1 hname with hname | hname
  · exact h name hname
  · exact h' name hname

theorem Bindings.Follows.allBound {names : List String} (h : b.Follows env)
    (hnames : ∀ name ∈ names, env.contains ⟨name, scope⟩) : AllBound (b.elements scope names) := by
  intro element helement
  obtain ⟨name, hname, rfl⟩ := List.mem_map.1 helement
  exact (h _).trans (hnames name hname)

/-- The names of which the two sides of an assignment take elements are bound. -/
theorem Assignment.contains_of_indexed (a : Assignment) (h : a.Agrees env scope) :
    ∀ name ∈ a.target.bare.indexed ++ a.value.bare.indexed, env.contains ⟨name, scope⟩ := by
  obtain ⟨hvalue, htarget⟩ := h
  intro name hname
  cases hshape : a.target with
  | var target shape =>
    rw [hshape] at hname htarget
    exact a.value.contains_of_indexed hvalue htarget.1 name hname
  | element target index ty =>
    rw [hshape] at hname htarget
    obtain ⟨hbound, hindex, hnumber, hty, -⟩ := htarget
    rcases List.mem_append.1 hname with hname | hname
    · rcases List.mem_cons.1 hname with rfl | hname
      · exact hbound
      · exact index.contains_of_indexed hindex (Ty.isResolved_of_isNumeric hnumber) name hname
    · exact a.value.contains_of_indexed hvalue (Ty.isResolved_of_isNumeric hty) name hname

theorem Target.contains_of_indexed (target : Target) (h : target.Agrees env scope) :
    ∀ name ∈ target.bare.indexed, env.contains ⟨name, scope⟩ := by
  cases target with
  | var name shape => simp [Target.bare, Bare.Target.indexed]
  | element name index ty =>
    intro other hother
    rcases List.mem_cons.1 hother with rfl | hother
    · exact h.1
    · exact index.contains_of_indexed h.2.1 (Ty.isResolved_of_isNumeric h.2.2.1) other hother

mutual

/-- The names of elements in a statement are bound where they stand. -/
theorem Stmt.allBound_elements {b : Bindings} {env : Environment} {scope : Scope}
    (hb : b.Follows env) (st : Stmt)
    (h : st.Agrees env scope) : AllBound (st.bare.elements b scope) := by
  cases st with
  | expr e => exact hb.allBound (e.contains_of_indexed h.1 h.2)
  | assign a => exact hb.allBound (a.contains_of_indexed h)
  | array ty name size =>
    exact hb.allBound (size.contains_of_indexed h.1 (Ty.isResolved_of_isNumeric h.2.1))
  | output e => exact hb.allBound (e.contains_of_indexed h.1 h.2)
  | input target ty => exact hb.allBound (target.contains_of_indexed h.1)
  | ifThen condition body rest =>
    obtain ⟨hcondition, hnumber, hbody, hrest⟩ := h
    have hfirst :=
      hb.allBound (condition.contains_of_indexed hcondition (Ty.isResolved_of_isNumeric hnumber))
    exact (hfirst.append (allBound_elementsAll hb body hbody)).append
      (rest.allBound_elements (follows_bindingsAll hb body) hrest)
  | whileLoop condition body =>
    obtain ⟨hcondition, hnumber, hbody⟩ := h
    exact (hb.allBound
      (condition.contains_of_indexed hcondition (Ty.isResolved_of_isNumeric hnumber))).append
      (allBound_elementsAll hb body hbody)
  | forLoop init bound body =>
    obtain ⟨hinit, -, -, hbound, hnumber, hbody⟩ := h
    have hcounter := hb.assignment init scope
    have hfirst : AllBound (b.elements scope init.value.bare.indexed) :=
      hb.allBound fun name hname => init.contains_of_indexed hinit name
        (List.mem_append_right _ hname)
    exact (hfirst.append (hcounter.allBound
      (bound.contains_of_indexed hbound (Ty.isResolved_of_isNumeric hnumber)))).append
      (allBound_elementsAll hcounter body hbody)
  | subroutine name params body ty =>
    exact allBound_elementsAll (hb.enter name params ty) body h.2.2.2
  | ret e => exact hb.allBound (e.contains_of_indexed h.2.1 h.2.2)

theorem allBound_elementsAll {b : Bindings} {env : Environment} {scope : Scope} (hb : b.Follows env)
    (sts : List Stmt)
    (h : allAgree env scope sts) : AllBound (Bare.elementsAll b scope (bareAll sts)) := by
  match sts with
  | [] => exact fun _ hname => nomatch hname
  | st :: rest =>
    exact (st.allBound_elements hb h.1).append
      (allBound_elementsAll (st.follows_bindings hb) rest h.2)

theorem ElsePart.allBound_elements {b : Bindings} {env : Environment} {scope : Scope}
    (hb : b.Follows env)
    (part : ElsePart) (h : part.Agrees env scope) : AllBound (part.bare.elements b scope) := by
  cases part with
  | none => exact fun _ hname => nomatch hname
  | body body => exact allBound_elementsAll hb body h
  | elseIf condition body rest =>
    obtain ⟨hcondition, hnumber, hbody, hrest⟩ := h
    have hfirst :=
      hb.allBound (condition.contains_of_indexed hcondition (Ty.isResolved_of_isNumeric hnumber))
    exact (hfirst.append (allBound_elementsAll hb body hbody)).append
      (rest.allBound_elements (follows_bindingsAll hb body) hrest)

end

/-! ### Programs -/

/-- **The names of elements are bound.**  In a program that is read, every name of which an element
is taken, as a value, as what is assigned to or as what is read into, was bound before in the same
scope: as an array, by an assignment or as a parameter.  A program that follows the grammar and has
one that was not is rejected: because of an undefined variable or a fault of types, or for something
else in its text that the grammar does not speak of. -/
theorem elements_bound (tokens : List Token) :
    (∀ p, parse tokens = .ok p → AllBound (Bare.elementsAll .none .top (bareAll p))) ∧
      ∀ tree, Phrase.Program (Input.ofTokens tokens).kinds tree →
      ¬ AllBound (Bare.elementsAll .none .top tree) →
        ∃ e, parse tokens = .error e ∧ e.Shown (Input.ofTokens tokens).kinds := by
  have haccepted : ∀ p, parse tokens = .ok p → AllBound (Bare.elementsAll .none .top (bareAll p)) :=
    fun p hp => allBound_elementsAll .start p (allAgree_of_parse hp)
  refine ⟨haccepted, fun tree htree hunbound => ?_⟩
  have hread := Grammar.statements_shown (c := .start _) (Input.kind_stop tokens) htree {} trivial
  cases hparse : parse tokens with
  | error e => exact ⟨e, rfl, hread.2 e hparse⟩
  | ok p =>
    refine absurd ?_ hunbound
    rw [← hread.1 p _ (Prod.ext hparse rfl)]
    exact haccepted p hparse

/-- Elements of arrays as values, as what is assigned to and as what is read into, in two scopes of
one name. -/
def elementsInScopes : String :=
  "INT a[3]\na[0] = 1\nINPUT a[1]\nINT SUBROUTINE f(INT n)\nDOUBLE a[n]\nRETURN a[0]\n" ++
    "ENDSUBROUTINE\nOUTPUT f(2) + a[a[0]]\n"

/-- An element of a name that nothing binds. -/
def elementOfNothing : String :=
  "b[0] = 1"

theorem elementsInScopes_bound :
    (∃ p, parse (scan elementsInScopes).tokens = .ok p ∧
      (Bare.elementsAll .none .top (bareAll p)).length = 5 ∧
      AllBound (Bare.elementsAll .none .top (bareAll p))) ∧
    ∃ tree, Phrase.Program (Input.ofTokens (scan elementOfNothing).tokens).kinds tree ∧
      ¬ AllBound (Bare.elementsAll .none .top tree) ∧
      ∃ e, parse (scan elementOfNothing).tokens = .error e ∧
        e.Shown (Input.ofTokens (scan elementOfNothing).tokens).kinds := by
  constructor
  · have hok : (parse (scan elementsInScopes).tokens).toOption.map
        (fun p => (Bare.elementsAll .none .top (bareAll p)).length) = some 5 := by decide +kernel
    obtain ⟨p, hp, hlength⟩ := Option.map_eq_some_iff.mp hok
    have hparse := eq_ok_of_toOption hp
    exact ⟨p, hparse, hlength, (elements_bound _).1 p hparse⟩
  · have hkinds : (Input.ofTokens (scan elementOfNothing).tokens).kinds =
      [.name "b", .mark .leftBracket, .int 0,
        .mark .rightBracket, .mark .assign, .int 1] := by decide +kernel
    have hint (value : Int) : Phrase.Expression [.int value] (.int value) :=
      .sum (.product (.signed (.atom (.int value))))
    have htree : Phrase.Program (Input.ofTokens (scan elementOfNothing).tokens).kinds
        [.assign (.element "b" (.int 0)) (.int 1)] := by
      rw [hkinds]
      exact .lines 0 0 (.one (.assign (.element "b" (hint 0)) (hint 1)))
    have hunbound :
      ¬ AllBound (Bare.elementsAll .none .top [.assign (.element "b" (.int 0)) (.int 1)]) := by
      intro h
      exact absurd (h ⟨⟨"b", .top⟩, none⟩ (by decide)) (by decide)
    exact ⟨_, htree, hunbound, (elements_bound _).2 _ htree hunbound⟩

/-- An element is assigned to of a name that an assignment has bound to a number. -/
def elementOfNumber : String :=
  "x = 1\nx[0] = 2\n"

/-- **The name of an element need not be declared as an array.** -/
theorem elementOfNumber_accepted : ∃ p, parse (scan elementOfNumber).tokens = .ok p ∧
    Bare.elementsAll .none .top (bareAll p) = [⟨⟨"x", .top⟩, some .variable⟩] := by
  have hok : (parse (scan elementOfNumber).tokens).toOption.map
    (fun p => Bare.elementsAll .none .top (bareAll p)) =
      some [⟨⟨"x", .top⟩, some .variable⟩] := by decide +kernel
  obtain ⟨p, hp, helements⟩ := Option.map_eq_some_iff.mp hok
  exact ⟨p, eq_ok_of_toOption hp, helements⟩

end Pseudocode
