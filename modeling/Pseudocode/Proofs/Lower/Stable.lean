import Pseudocode.Proofs.Lower.Headers

/-!
What every step of lowering has, the code of a program has.

A property of lowerings is `Stable` in a scope if the single steps have it and if it is kept where
steps follow one another.  Looking at the state is a step of a special kind: what is done then may
depend on no more than what there is to see from the scope (`State.SameView`).

Two kinds of steps are left out, since a property may well fail for them: interning a string, and
making a function for a subroutine.  A program that holds none of them has every stable property,
and for others it must be said of the strings and of the subroutines in it (`block_stable`).
-/

namespace Pseudocode

variable {e : Expr}

/-! ### Strings in a program -/

def Assignment.strings (a : Assignment) : List String :=
  a.target.strings ++ a.value.strings

mutual

def Stmt.strings : Stmt → List String
  | .expr e => e.strings
  | .assign a => a.strings
  | .array _ _ size => size.strings
  | .output e => e.strings
  | .input target _ => target.strings
  | .ifThen condition body rest => condition.strings ++ (stringsAll body ++ rest.strings)
  | .whileLoop condition body => condition.strings ++ stringsAll body
  | .forLoop init bound body => init.strings ++ (bound.strings ++ stringsAll body)
  | .subroutine _ _ body _ => stringsAll body
  | .ret e => e.strings

def stringsAll : List Stmt → List String
  | [] => []
  | s :: rest => s.strings ++ stringsAll rest

def ElsePart.strings : ElsePart → List String
  | .none => []
  | .body body => stringsAll body
  | .elseIf condition body rest => condition.strings ++ (stringsAll body ++ rest.strings)

end

namespace Lower

open Ir

/-! ### Stable properties -/

/-- There is the same to see from the scope. -/
structure State.SameView (scope : Scope) (s t : State) : Prop where
  routines : t.routines = s.routines
  subroutines : t.subroutines = s.subroutines
  function : t.function = s.function
  storage : ∀ name, t.storage[(⟨name, scope⟩ : Symbol)]? = s.storage[(⟨name, scope⟩ : Symbol)]?

/-- The steps in a scope have the property, and lowerings that are made of such lowerings have
it. -/
structure Stable (P : ∀ {α : Type}, Lowering α → Prop) (scope : Scope) : Prop where
  pure : ∀ {α : Type} (a : α), P (pure a)
  throw : ∀ {α : Type} (e : LowerError), P (throw e : Lowering α)
  bind : ∀ {α β : Type} {m : Lowering α} {f : α → Lowering β}, P m → (∀ a, P (f a)) → P (m >>= f)
  look : ∀ {α : Type} {f : State → Lowering α}, (∀ s t, s.SameView scope t → f t = f s) →
    (∀ s, P (f s)) → P (get >>= f)
  tell : ∀ e, P (tell e)
  onFunction : ∀ {α : Type} (change : FunctionDraft → α × FunctionDraft), P (onFunction change)
  tryFunction : ∀ {α : Type} (change : FunctionDraft → Except OperandFault (α × FunctionDraft)),
    P (tryFunction change)
  setSlot : ∀ (name : String) (slot : Slot), P (setSlot ⟨name, scope⟩ slot)
  forget : P (modify fun s => { s with storage := s.storage.forgetLengths scope })
  arm : ∀ (condition : Expr) (join? : Option Nat) (body : Lowering Unit)
    (rest? : Option (Nat → Lowering Unit)),
    P (truthOf scope condition) → P body → (∀ rest, rest? = some rest → ∀ join, P (rest join)) →
    P (arm scope condition join? body rest?)

namespace Stable

variable {P : ∀ {α : Type}, Lowering α → Prop} {scope : Scope} (h : Stable P scope)

include h

/-! ### Expressions -/

theorem tryInstr {α : Type} (change : FunctionDraft → Except Fault (α × FunctionDraft)) :
    P (tryInstr change) :=
  h.tryFunction _

theorem slotOf (name : String) : P (slotOf ⟨name, scope⟩) := by
  refine h.look (fun s t hst => by rw [hst.storage]) fun s => ?_
  cases s.storage[(⟨name, scope⟩ : Symbol)]? with
  | some slot => exact h.pure slot
  | none => exact h.throw _

theorem subroutineOf (name : String) (found : Nat) : P (subroutineOf scope name found) := by
  refine h.look (fun s t hst => by rw [hst.subroutines]) fun s => ?_
  cases s.subroutines[name]? with
  | none => exact h.throw _
  | some sub =>
    by_cases hfound : found = sub.params.length
    · simp only [hfound, if_true]
      exact h.pure sub
    · simp only [hfound, if_false]
      exact h.throw _

theorem call (callee : String) (signature : Signature) (args : List Value) :
    P (call callee signature args) := by
  refine h.bind (h.onFunction _) fun value? => ?_
  cases value? with
  | some value => exact h.pure value
  | none => exact h.throw _

/-- All the steps that reading an expression takes have a stable property. -/
theorem reads : Reads (fun _ => P) scope fun _ => True where
  pure := h.pure
  invalid _ _ := h.throw _
  bind := h.bind
  look hf := h.look fun s t hst => hf s t hst.routines
  arith _ _ _ := h.onFunction _
  icmp _ _ _ := h.onFunction _
  fcmp _ _ _ := h.onFunction _
  cast _ _ _ := h.onFunction _
  offset _ _ := h.tryInstr _
  firstByte _ := h.tryInstr _
  call := h.call
  run _ _ _ := h.bind (h.onFunction _) fun _ => h.pure _
  format _ := h.look (fun s t hst => by rw [hst.routines]) fun _ => h.tryFunction _
  load _ := h.tryInstr _
  slotOf := h.slotOf
  subroutineOf _ _ hf _ := h.bind (h.subroutineOf _ _) hf

theorem operand (hstrings : ∀ text ∈ e.strings, P (internText text)) : P (operand scope e) :=
  h.reads.operand e (fun _ _ => trivial) hstrings

theorem valueOf (hstrings : ∀ text ∈ e.strings, P (internText text)) (want : Ty) :
    P (valueOf scope e want) :=
  h.reads.valueOf (fun _ _ => trivial) hstrings want

theorem truthOf (hstrings : ∀ text ∈ e.strings, P (internText text)) : P (truthOf scope e) :=
  h.reads.truthOf (fun _ _ => trivial) hstrings

/-! ### Statements without bodies -/

theorem scalarSlot (name : String) (ty : Ty) : P (scalarSlot ⟨name, scope⟩ ty) := by
  have hfresh : P (scalarSlot.fresh ⟨name, scope⟩ ty) :=
    h.bind (h.reads.irTy ty) fun _ => h.bind (h.onFunction _) fun _ => h.bind (h.setSlot name _)
      fun _ => h.pure _
  refine h.look (fun s t hst => by rw [hst.storage]) fun s => ?_
  cases s.storage[(⟨name, scope⟩ : Symbol)]? with
  | none => exact hfresh
  | some slot =>
    dsimp only
    split
    · exact h.pure _
    · exact hfresh

theorem storeParams (pairs : List (Param × Ir.Param)) : P (storeParams scope pairs) := by
  induction pairs with
  | nil => exact h.pure _
  | cons pair pairs ih =>
    rw [Lower.storeParams, List.forM_cons]
    exact h.bind (h.bind (h.scalarSlot _ _) fun _ => h.tryInstr _) fun _ => ih

theorem stringBuffer (name : String) (length : Nat) : P (stringBuffer ⟨name, scope⟩ length) := by
  have hfresh : P (stringBuffer.fresh ⟨name, scope⟩ length) := by
    refine h.bind (h.onFunction _) fun address => h.bind (h.tryInstr _) fun _ => ?_
    refine h.bind (h.reads.byteCount length) fun size => h.bind (h.reads.malloc size)
      fun buffer => ?_
    exact h.bind (h.tryInstr _) fun _ => h.bind (h.setSlot name _) fun _ => h.pure _
  refine h.look (fun s t hst => by rw [hst.storage]) fun s => ?_
  cases s.storage[(⟨name, scope⟩ : Symbol)]? with
  | none => exact hfresh
  | some slot =>
    dsimp only
    split
    · split
      · exact h.tryInstr _
      · refine h.bind (h.tryInstr _) fun old => h.bind (h.reads.byteCount length) fun size => ?_
        refine h.bind (h.reads.realloc old size) fun resized => h.bind (h.tryInstr _) fun _ => ?_
        exact h.bind (h.setSlot name _) fun _ => h.pure _
    · exact hfresh

/-- An assignment has a stable property if interning its strings has. -/
theorem assign {a : Assignment} (hstrings : ∀ text ∈ a.strings, P (internText text)) :
    P (assign scope a) := by
  obtain ⟨target, value, ty⟩ := a
  have hvalue : ∀ text ∈ value.strings, P (internText text) :=
    fun text ht => hstrings text (List.mem_append_right _ ht)
  cases target with
  | var name shape =>
    rw [Lower.assign]
    dsimp only
    split
    · refine h.bind (h.valueOf hvalue .string) fun source => h.bind (h.stringBuffer name _)
        fun buffer => ?_
      exact h.bind (h.reads.byteCount _) fun size => h.reads.memcpy buffer source size
    · exact h.bind (h.valueOf hvalue _) fun value => h.bind (h.scalarSlot name _)
        fun slot => h.tryInstr _
  | element name index ty =>
    have hindex := h.operand fun text ht => hstrings text (List.mem_append_left _ ht)
    refine h.bind (h.reads.elementTy name) fun ty => h.bind (h.valueOf hvalue ty) fun value => ?_
    exact h.bind (h.reads.elementAddress [] hindex name) fun ptr => h.tryInstr _

theorem declareArray {size : Expr} (hstrings : ∀ text ∈ size.strings, P (internText text)) (ty : Ty)
    (name : String) : P (declareArray scope ty name size) := by
  refine h.bind (h.valueOf hstrings .int) fun count => h.bind (h.onFunction _) fun bytes => ?_
  refine h.bind (h.reads.malloc bytes) fun memory => h.bind (h.reads.irTy ty) fun element => h.bind
    (h.onFunction _) fun first => ?_
  refine h.look (fun s t hst => by rw [hst.storage]) fun s => ?_
  have hfresh : ∀ slot : Value → Slot, P (do
      let address ← reserve name (.ptr element)
      Lower.setSlot ⟨name, scope⟩ (slot address)
      store first address) :=
    fun slot => h.bind (h.onFunction _) fun address => h.bind (h.setSlot name _)
      fun _ => h.tryInstr _
  cases s.storage[(⟨name, scope⟩ : Symbol)]? with
  | none => simpa using hfresh _
  | some slot =>
    dsimp only
    split
    · exact h.bind (h.pure _) fun _ => h.tryInstr _
    · simpa using hfresh _

theorem leaveWith (hstrings : ∀ text ∈ e.strings, P (internText text)) : P (leaveWith scope e) := by
  refine h.look (fun s t hst => by rw [hst.subroutines, hst.function]) fun s => ?_
  cases s.subroutines[s.function.name]? with
  | none => exact h.throw _
  | some sub =>
    refine h.bind (h.valueOf hstrings sub.ty) fun value => h.bind (h.onFunction _) fun _ => ?_
    exact h.bind (h.onFunction _) fun block => h.onFunction _

/-! ### Loops -/

theorem fallThrough (block : Nat) : P (fallThrough block) := by
  refine h.look (fun s t hst => by rw [hst.function]) fun s => ?_
  by_cases hset : s.function.isTerminated = true
  · simp only [hset, if_true]
    exact h.pure _
  · simp only [hset, Bool.false_eq_true, if_false]
    exact h.onFunction _

/-- A loop has a stable property if its body and its step have. -/
theorem loop {kind : String} {body step : Lowering Unit} {condition : Expr} (hbody : P body)
    (hstep : P step)
    (hstrings : ∀ text ∈ condition.strings, P (internText text)) :
    P (loop scope kind body step condition) := by
  refine h.bind (h.onFunction _) fun bodyBlock => h.bind (h.onFunction _) fun exitBlock => ?_
  refine h.bind (h.onFunction _) fun _ => h.bind (h.onFunction _) fun _ => h.bind h.forget
    fun _ => ?_
  refine h.bind hbody fun _ => h.bind hstep fun _ => h.bind (h.truthOf hstrings) fun truth => ?_
  exact h.bind (h.onFunction _) fun _ => h.onFunction _

end Stable

/-! ### Programs -/

section

variable {P : ∀ {α : Type}, Lowering α → Prop} {S : Scope → Prop}
  (h : ∀ scope, S scope → Stable P scope)

include h

mutual

/-- A statement has a stable property if its strings and its subroutines have it. -/
theorem statement_stable (scope : Scope) (hscope : S scope) (st : Stmt)
    (hstrings : ∀ text ∈ st.strings, P (internText text))
    (hheaders : ∀ header ∈ st.headers, S (.subroutine header.name) ∧
      ∀ body, P body → P (subroutine header.name header.params header.ty body)) :
      P (statement scope st) := by
  have hs := h scope hscope
  rw [statement.eq_def]
  refine hs.bind (hs.tell _) fun _ => ?_
  cases st with
  | expr e => exact hs.bind (hs.operand hstrings) fun _ => hs.pure _
  | assign a => exact hs.assign hstrings
  | array ty name size => exact hs.declareArray hstrings ty name
  | output e => exact hs.reads.output (fun _ _ => trivial) hstrings
  | input target ty => exact hs.reads.input (fun _ _ => trivial) hstrings
  | ifThen condition body rest =>
    have hcondition := hs.truthOf fun text ht => hstrings text (List.mem_append_left _ ht)
    replace hstrings := fun text ht => hstrings text (List.mem_append_right _ ht)
    refine hs.arm condition none _ _ hcondition ?_ ?_
    · exact block_stable scope hscope body
        (fun text ht => hstrings text (List.mem_append_left _ ht))
        fun header hmem => hheaders header (List.mem_append_left _ hmem)
    · exact elsePart_stable scope hscope rest
        (fun text ht => hstrings text (List.mem_append_right _ ht))
        fun header hmem => hheaders header (List.mem_append_right _ hmem)
  | whileLoop condition body =>
    refine hs.loop ?_ (hs.pure ()) fun text ht => hstrings text (List.mem_append_left _ ht)
    exact block_stable scope hscope body
      (fun text ht => hstrings text (List.mem_append_right _ ht)) hheaders
  | forLoop init bound body =>
    refine hs.bind (hs.assign fun text ht => hstrings text (List.mem_append_left _ ht)) fun _ => ?_
    replace hstrings := fun text ht => hstrings text (List.mem_append_right _ ht)
    have hbody := block_stable scope hscope body
      (fun text ht => hstrings text (List.mem_append_right _ ht)) hheaders
    have hstep : P (assign scope (counterStep init)) :=
      hs.assign (by simp [counterStep, Assignment.strings, Target.strings, Expr.strings])
    unfold counterTest
    cases Ty.promote? init.ty bound.ty with
    | none => exact hs.throw _
    | some ty =>
      dsimp only
      rw [pure_bind]
      refine hs.loop hbody hstep fun text ht => hstrings text (List.mem_append_left _ ?_)
      simpa [Expr.strings] using ht
  | subroutine name params body ty =>
    obtain ⟨hinner, hmake⟩ :=
      hheaders ⟨name, params, ty⟩ (List.mem_append_right _ List.mem_cons_self)
    exact hmake _ (block_stable (.subroutine name) hinner body hstrings
      fun header hmem => hheaders header (List.mem_append_left _ hmem))
  | ret e => exact hs.leaveWith hstrings

/-- So has the code of a block, and of a whole program. -/
theorem block_stable (scope : Scope) (hscope : S scope) (body : List Stmt)
    (hstrings : ∀ text ∈ stringsAll body, P (internText text))
    (hheaders : ∀ header ∈ headersAll body, S (.subroutine header.name) ∧
      ∀ body, P body → P (subroutine header.name header.params header.ty body)) :
      P (block scope body) := by
  have hs := h scope hscope
  cases body with
  | nil => exact hs.pure ()
  | cons st rest =>
    rw [block]
    have hst := statement_stable scope hscope st
      (fun text ht => hstrings text (List.mem_append_left _ ht))
      fun header hmem => hheaders header (List.mem_append_left _ hmem)
    exact hs.bind hst fun _ => block_stable scope hscope rest
      (fun text ht => hstrings text (List.mem_append_right _ ht))
      fun header hmem => hheaders header (List.mem_append_right _ hmem)

theorem elsePart_stable (scope : Scope) (hscope : S scope) (part : ElsePart)
    (hstrings : ∀ text ∈ part.strings, P (internText text))
    (hheaders : ∀ header ∈ part.headers, S (.subroutine header.name) ∧
      ∀ body, P body → P (subroutine header.name header.params header.ty body)) :
    ∀ rest, elsePart? scope part = some rest → ∀ join, P (rest join) := by
  have hs := h scope hscope
  intro rest hpart join
  cases part with
  | none => simp [elsePart?] at hpart
  | body body =>
    rw [elsePart?, Option.some.injEq] at hpart
    subst hpart
    exact hs.bind (block_stable scope hscope body hstrings hheaders) fun _ => hs.fallThrough join
  | elseIf condition body next =>
    rw [elsePart?, Option.some.injEq] at hpart
    subst hpart
    have hcondition := hs.truthOf fun text ht => hstrings text (List.mem_append_left _ ht)
    replace hstrings := fun text ht => hstrings text (List.mem_append_right _ ht)
    refine hs.arm condition (some join) _ _ hcondition ?_ ?_
    · exact block_stable scope hscope body
        (fun text ht => hstrings text (List.mem_append_left _ ht))
        fun header hmem => hheaders header (List.mem_append_left _ hmem)
    · exact elsePart_stable scope hscope next
        (fun text ht => hstrings text (List.mem_append_right _ ht))
        fun header hmem => hheaders header (List.mem_append_right _ hmem)

end

end

end Lower

end Pseudocode
