import Pseudocode.Lower.Stmt

/-!
What the steps of an expression have, its code has.

A property of lowerings `Accrues` if the steps that look up no variable have it and if it is kept
where steps follow one another.  It comes with the variables that the steps look up, one after
another.  If it also holds where a variable or a subroutine is looked up (`Reads`), it holds of the
code for every expression, with the variables that the expression reads.  Interning a string is left
out, since a property may well fail for it: it must be said of the strings in the expression.
-/

namespace Pseudocode

variable {e : Expr} {target : Target}

/-! ### What an expression refers to -/

mutual

/-- The variables that are loaded to find the value of an expression. -/
def Expr.reads : Expr → List String
  | .constant .. => []
  | .var name _ => [name]
  | .element name index _ => name :: index.reads
  | .binary _ lhs rhs _ => lhs.reads ++ rhs.reads
  | .negate operand _ => operand.reads
  | .call _ args _ => readsAll args

def readsAll : List Expr → List String
  | [] => []
  | e :: es => e.reads ++ readsAll es

end

mutual

/-- The subroutines that are called to find the value of an expression. -/
def Expr.calls : Expr → List String
  | .constant .. => []
  | .var .. => []
  | .element _ index _ => index.calls
  | .binary _ lhs rhs _ => lhs.calls ++ rhs.calls
  | .negate operand _ => operand.calls
  | .call name args _ => name :: callsAll args

def callsAll : List Expr → List String
  | [] => []
  | e :: es => e.calls ++ callsAll es

end

mutual

/-- The strings in an expression. -/
def Expr.strings : Expr → List String
  | .constant (.string text) _ => [text]
  | .constant _ _ => []
  | .var _ _ => []
  | .element _ index _ => index.strings
  | .binary _ lhs rhs _ => lhs.strings ++ rhs.strings
  | .negate e _ => e.strings
  | .call _ args _ => stringsOf args

def stringsOf : List Expr → List String
  | [] => []
  | e :: es => e.strings ++ stringsOf es

end

def Target.calls : Target → List String
  | .var .. => []
  | .element _ index _ => index.calls

def Target.strings : Target → List String
  | .var _ _ => []
  | .element _ index _ => index.strings

/-- The variables that are looked up to find where a value is read to. -/
def Target.lookups : Target → List String
  | .var name _ => [name]
  | .element name index _ => name :: name :: index.reads

namespace Lower

open Ir

/-- Interning a string. -/
def internText (text : String) : Lowering Value :=
  modifyGet fun s =>
    let (global, m) := s.module.intern none text
    (global, { s with module := m })

/-! ### Steps that look up no variable -/

/-- The steps that look up no variable have the property, and lowerings that are made of such
lowerings have it, with the names that come with each. -/
structure Accrues (P : List String → ∀ {α : Type}, Lowering α → Prop) : Prop where
  pure : ∀ {α : Type} (a : α), P [] (pure a)
  invalid : ∀ {α : Type} (names : List String) (fault : OperandFault), P names
    (invalid fault : Lowering α)
  bind : ∀ {α β : Type} {names more : List String} {m : Lowering α} {f : α → Lowering β},
    P names m → (∀ a, P more (f a)) → P (names ++ more) (m >>= f)
  look : ∀ {α : Type} {f : State → Lowering α}, (∀ s t, t.routines = s.routines → f t = f s) →
    (∀ s, P [] (f s)) → P [] (get >>= f)
  arith : ∀ op lhs rhs, P [] (arith op lhs rhs)
  icmp : ∀ pred lhs rhs, P [] (icmp pred lhs rhs)
  fcmp : ∀ pred lhs rhs, P [] (fcmp pred lhs rhs)
  cast : ∀ op value target, P [] (cast op value target)
  offset : ∀ base index, P [] (offset base index)
  firstByte : ∀ global, P [] (firstByte global)
  call : ∀ callee signature args, P [] (call callee signature args)
  run : ∀ callee signature args, P [] (run callee signature args)
  format : ∀ ty, P [] (format ty)

namespace Accrues

variable {P : List String → ∀ {α : Type}, Lowering α → Prop} (h : Accrues P)

include h

theorem before {α β : Type} {names : List String} {m : Lowering α} {f : α → Lowering β}
    (hm : P [] m) (hf : ∀ a, P names (f a)) : P names (m >>= f) :=
  h.bind hm hf

theorem followed {α β : Type} {names : List String} {m : Lowering α} {f : α → Lowering β}
    (hm : P names m) (hf : ∀ a, P [] (f a)) : P names (m >>= f) := by
  simpa using h.bind hm hf

theorem word (size : Nat) : P [] (word size) := by
  unfold Lower.word
  split
  · exact h.pure _
  · exact h.invalid _ _

theorem byteCount (size : Nat) : P [] (byteCount size) :=
  h.before (h.word size) fun _ => h.cast _ _ _

theorem malloc (size : Value) : P [] (malloc size) :=
  h.look (fun s t hst => by rw [hst]) fun _ => h.call _ _ _

theorem realloc (old size : Value) : P [] (realloc old size) :=
  h.look (fun s t hst => by rw [hst]) fun _ => h.call _ _ _

theorem memcpy (dest source size : Value) : P [] (memcpy dest source size) :=
  h.look (fun s t hst => by rw [hst]) fun _ => h.before (h.call _ _ _) fun _ => h.pure _

theorem printf (args : List Value) : P [] (printf args) :=
  h.look (fun s t hst => by rw [hst]) fun _ => h.run _ _ _

theorem scanf (args : List Value) : P [] (scanf args) :=
  h.look (fun s t hst => by rw [hst]) fun _ => h.run _ _ _

theorem irTy (ty : Ty) : P [] (irTy ty) := by
  cases ty with
  | undetermined => exact h.invalid _ _
  | _ => exact h.pure _

theorem convert (value : Value) (want : Ty) : P [] (convert value want) := by
  refine h.before (h.irTy want) fun target => ?_
  by_cases hty : value.ty = target
  · rw [if_pos hty]
    exact h.pure value
  · rw [if_neg hty]
    split
    · exact h.cast _ _ _
    · exact h.invalid _ _

variable {names more : List String} {lhs rhs part : Lowering Operand}

theorem compare {ty : Ty} (hl : P names (fetch lhs ty)) (hr : P more (fetch rhs ty))
    (op : BinaryOp) : P (names ++ more) (compare op ty lhs rhs) := by
  refine h.bind hl fun left => h.followed hr fun right => ?_
  cases ty with
  | int =>
    cases intPred? op with
    | none => exact h.invalid _ _
    | some pred => exact h.icmp _ _ _
  | double =>
    cases floatPred? op with
    | none => exact h.invalid _ _
    | some pred => exact h.fcmp _ _ _
  | _ => exact h.invalid _ _

theorem calculate {ty : Ty} (hl : P names (fetch lhs ty)) (hr : P more (fetch rhs ty))
    (op : BinaryOp) : P (names ++ more) (calculate op ty lhs rhs) := by
  refine h.bind hl fun left => h.followed hr fun right => ?_
  cases arithOp? ty op with
  | none => exact h.invalid _ _
  | some op => exact h.arith _ _ _

theorem negate {ty : Ty} (hpart : P names (fetch part ty)) : P names (negate ty part) := by
  refine h.followed hpart fun value => ?_
  cases ty with
  | int => exact h.arith _ _ _
  | double => exact h.arith _ _ _
  | _ => exact h.invalid _ _

theorem concat (hl : P names (fetch lhs .string)) (hr : P more (fetch rhs .string))
    (length leftLength rightLength : Nat) :
    P (names ++ more) (concat length leftLength rightLength lhs rhs) := by
  refine h.bind hl fun left => h.followed hr fun right => ?_
  refine h.before (h.byteCount length) fun size => h.before (h.malloc size) fun buffer => ?_
  refine h.before (h.byteCount _) fun kept => h.before (h.memcpy buffer left kept) fun _ => ?_
  refine h.before (h.word _) fun index => h.before (h.offset _ _) fun tail => ?_
  exact h.before (h.byteCount rightLength) fun rest => h.before (h.memcpy tail right rest)
    fun _ => h.pure buffer

/-- A comparison is made of the values of its operands, and anything else is compared with zero. -/
theorem truthOf {scope : Scope} (hvalue : P e.reads (valueOf scope e e.ty))
    (hparts : ∀ op lhs rhs shape, e = .binary op lhs rhs shape →
      P lhs.reads (valueOf scope lhs shape.ty) ∧ P rhs.reads (valueOf scope rhs shape.ty)) :
    P e.reads (truthOf scope e) := by
  have hnonzero : P e.reads (truthOf.nonzero scope e) := by
    refine h.followed hvalue fun value => ?_
    cases e.ty with
    | int => exact h.icmp _ _ _
    | double => exact h.fcmp _ _ _
    | _ => exact h.invalid _ _
  cases e with
  | binary op lhs rhs shape =>
    obtain ⟨hl, hr⟩ := hparts op lhs rhs shape rfl
    rw [Lower.truthOf]
    split
    · exact h.compare hl hr op
    · exact hnonzero
  | _ => exact hnonzero

theorem output {scope : Scope} (hvalue : P e.reads (valueOf scope e e.ty)) :
    P e.reads (output scope e) := by
  refine h.followed hvalue fun value => h.before (h.format _) fun format => h.before (h.printf _)
    fun _ => ?_
  exact h.look (fun s t hst => by rw [hst]) fun s => h.before (h.firstByte _)
    fun newline => h.printf _

end Accrues

/-! ### Steps that look up a variable or a subroutine -/

/-- The property also holds where the slot of a variable is looked up, and where a subroutine is
that is `declared`.  How many arguments the subroutine takes is known then. -/
structure Reads (P : List String → ∀ {α : Type}, Lowering α → Prop) (scope : Scope)
    (declared : String → Prop) : Prop extends Accrues P where
  load : ∀ ptr, P [] (load ptr)
  slotOf : ∀ name, P [name] (slotOf ⟨name, scope⟩)
  subroutineOf : ∀ {α : Type} {name : String} {found : Nat} {names : List String}
    {f : Subroutine → Lowering α}
    (uses : Subroutine → List String), declared name → (∀ sub, P (uses sub) (f sub)) →
    (∀ sub, found = sub.params.length → uses sub = names) →
    P names (subroutineOf scope name found >>= f)

namespace Reads

variable {P : List String → ∀ {α : Type}, Lowering α → Prop} {scope : Scope}
  {declared : String → Prop} (h : Reads P scope declared)

include h

section

variable (names : List String) {part : Lowering Operand} (hpart : P names part)

include hpart

theorem fetch (want : Ty) : P names (fetch part want) := by
  refine h.followed hpart fun operand => ?_
  cases operand with
  | value v => exact h.convert v want
  | address ptr => exact h.before (h.load ptr) fun v => h.convert v want

theorem elementAddress (name : String) : P (name :: names) (elementAddress ⟨name, scope⟩ part) := by
  refine h.bind (h.slotOf name) fun slot => ?_
  split
  · exact h.invalid _ _
  · exact h.before (h.load _) fun first => h.followed (h.fetch names hpart .int)
      fun index => h.offset _ _

end

theorem elementTy (name : String) : P [name] (elementTy ⟨name, scope⟩) := by
  refine h.followed (h.slotOf name) fun slot => ?_
  split
  · exact h.pure _
  · exact h.invalid _ _

theorem variableAddress (name : String) : P [name] (variableAddress ⟨name, scope⟩) := by
  refine h.followed (h.slotOf name) fun slot => ?_
  split
  · exact h.pure _
  · exact h.invalid _ _

mutual

/-- **What the steps of an expression have, its code has.** -/
theorem operand (e : Expr) (hcalls : ∀ name ∈ e.calls, declared name)
    (hstrings : ∀ text ∈ e.strings, P [] (internText text)) : P e.reads (operand scope e) := by
  cases e with
  | constant value shape =>
    cases value with
    | string text =>
      have htext := hstrings text List.mem_cons_self
      exact h.before htext fun _ => h.before (h.firstByte _) fun _ => h.pure _
    | _ => exact h.pure _
  | var name shape => exact h.followed (h.variableAddress name) fun _ => h.pure _
  | element name index shape =>
    exact h.followed (h.elementAddress _ (operand index hcalls hstrings) name) fun _ => h.pure _
  | binary op lhs rhs shape =>
    obtain ⟨hcallsL, hcallsR⟩ := List.forall_mem_append.1 hcalls
    obtain ⟨hstringsL, hstringsR⟩ := List.forall_mem_append.1 hstrings
    have hl := h.fetch _ (operand lhs hcallsL hstringsL)
    have hr := h.fetch _ (operand rhs hcallsR hstringsR)
    rw [Lower.operand]
    split
    · exact h.followed (h.compare (hl _) (hr _) op) fun _ => h.pure _
    · split
      · exact h.followed (h.concat (hl _) (hr _) _ _ _) fun _ => h.pure _
      · exact h.followed (h.calculate (hl _) (hr _) op) fun _ => h.pure _
  | negate e shape =>
    exact h.followed (h.negate (h.fetch _ (operand e hcalls hstrings) _)) fun _ => h.pure _
  | call name args ty =>
    obtain ⟨hname, hcalls⟩ := List.forall_mem_cons.1 hcalls
    rw [Lower.operand]
    refine h.subroutineOf (fun sub => readsAll (args.take sub.params.length)) hname (fun sub => ?_)
      fun sub hfound => ?_
    · exact h.followed (arguments args sub.params hcalls hstrings) fun _ => h.before (h.call _ _ _)
        fun _ => h.pure _
    · rw [← hfound, List.take_length]
      rfl

theorem arguments (es : List Expr) (tys : List Ty) (hcalls : ∀ name ∈ callsAll es, declared name)
    (hstrings : ∀ text ∈ stringsOf es, P [] (internText text)) :
    P (readsAll (es.take tys.length)) (arguments scope es tys) := by
  cases es with
  | nil =>
    rw [List.take_nil]
    exact h.pure _
  | cons e es =>
    cases tys with
    | nil => exact h.pure _
    | cons ty tys =>
      obtain ⟨hcallsE, hcallsEs⟩ := List.forall_mem_append.1 hcalls
      obtain ⟨hstringsE, hstringsEs⟩ := List.forall_mem_append.1 hstrings
      rw [Lower.arguments]
      exact h.bind (h.fetch _ (operand e hcallsE hstringsE) ty) fun _ =>
        h.followed (arguments es tys hcallsEs hstringsEs) fun _ => h.pure _

end

section

variable (hcalls : ∀ name ∈ e.calls, declared name)
  (hstrings : ∀ text ∈ e.strings, P [] (internText text))

include hcalls hstrings

theorem valueOf (want : Ty) : P e.reads (valueOf scope e want) :=
  h.fetch _ (h.operand e hcalls hstrings) want

theorem truthOf : P e.reads (truthOf scope e) := by
  refine h.toAccrues.truthOf (h.valueOf hcalls hstrings _) fun op lhs rhs shape he => ?_
  subst he
  obtain ⟨hcallsL, hcallsR⟩ := List.forall_mem_append.1 hcalls
  obtain ⟨hstringsL, hstringsR⟩ := List.forall_mem_append.1 hstrings
  exact ⟨h.valueOf hcallsL hstringsL _, h.valueOf hcallsR hstringsR _⟩

theorem output : P e.reads (output scope e) :=
  h.toAccrues.output (h.valueOf hcalls hstrings _)

end

theorem inputPlace (hcalls : ∀ name ∈ target.calls, declared name)
    (hstrings : ∀ text ∈ target.strings, P [] (internText text)) :
    P target.lookups (inputPlace scope target) := by
  cases target with
  | var name shape =>
    refine h.followed (h.slotOf name) fun slot => ?_
    split
    · exact h.before (h.load _) fun _ => h.pure _
    · exact h.pure _
    · exact h.invalid _ _
  | element name index ty =>
    exact h.bind (h.elementTy name) fun ty =>
      h.followed (h.elementAddress _ (h.operand index hcalls hstrings) name) fun _ => h.pure _

theorem input (hcalls : ∀ name ∈ target.calls, declared name)
    (hstrings : ∀ text ∈ target.strings, P [] (internText text)) :
    P target.lookups (input scope target) :=
  h.followed (h.inputPlace hcalls hstrings) fun _ => h.before (h.format _) fun _ => h.scanf _

end Reads

end Lower

end Pseudocode
