import Pseudocode.Proofs.Lower.Failure
import Pseudocode.Proofs.Scoping.Scoped

/-!
Which variables code generation looks up.

`Judges ok m` says that a computation and a condition have the same opinion: where the computation
succeeds the condition holds, and where it fails because a name stands for nothing the condition
does not.  It may fail for another reason in either case.  The conditions of two steps are put
together with the steps (`Judges.bind`).

For an expression the condition is that the variables it reads are bound (`Needs`).
-/

namespace Pseudocode

variable {e : Expr}

/-- Does a name stand for nothing? -/
def LowerError.isUnresolved : LowerError → Bool
  | .unresolvedName .. => true
  | _ => false

namespace Lower

open Ir

variable {α β : Type}

/-! ### Computations with an opinion -/

/-- Where the computation succeeds, `ok` holds; where it fails for a name, `ok` does not hold. -/
def Judges (ok : Prop) (P : State → Prop) (m : Lowering α) (Q : α → State → Prop) : Prop :=
  Triple P m (fun a s => ok ∧ Q a s) fun e => e.isUnresolved → ¬ ok

namespace Judges

variable {ok ok' : Prop} {P : State → Prop} {m : Lowering α} {Q : α → State → Prop}

/-- What is known apart from the state stays known, and a failure speaks against all that includes
the condition. -/
theorem carry {φ ψ : Prop} (h : Judges ok P m Q) (hψ : ψ → ok) :
    Triple (fun s => φ ∧ P s) m (fun a s => (φ ∧ ok) ∧ Q a s) fun e => e.isUnresolved → ¬ ψ := by
  intro s hs
  refine ⟨fun a s' hrun => ?_, fun e he hname hall => (h s hs.2).2 e he hname (hψ hall)⟩
  obtain ⟨hok, hQ⟩ := (h s hs.2).1 a s' hrun
  exact ⟨⟨hs.1, hok⟩, hQ⟩

theorem widen {ψ : Prop} (h : Judges ok P m Q) (hψ : ψ → ok) :
    Triple P m (fun a s => ok ∧ Q a s) fun e => e.isUnresolved → ¬ ψ :=
  Triple.mono h (fun _ hs => hs) (fun _ _ hs => hs) fun _ he hname hall => he hname (hψ hall)

theorem bind {f : α → Lowering β} {R : β → State → Prop} (hm : Judges ok P m Q)
    (hf : ∀ a, Judges ok' (Q a) (f a) R) : Judges (ok ∧ ok') P (m >>= f) R :=
  Triple.bind (hm.widen And.left) fun a => (hf a).carry And.right

theorem congr (h : Judges ok P m Q) (hok : ok ↔ ok') : Judges ok' P m Q := by
  rwa [propext hok] at h

/-- A second step without an opinion. -/
theorem followed {f : α → Lowering β} {R : β → State → Prop} (hm : Judges ok P m Q)
    (hf : ∀ a, Judges True (Q a) (f a) R) : Judges ok P (m >>= f) R :=
  (hm.bind hf).congr (and_iff_left trivial)

/-- A first step without an opinion. -/
theorem before {f : α → Lowering β} {R : β → State → Prop} (hm : Judges True P m Q)
    (hf : ∀ a, Judges ok (Q a) (f a) R) : Judges ok P (m >>= f) R :=
  (hm.bind hf).congr (and_iff_right trivial)

theorem weaken {P' : State → Prop} {Q' : α → State → Prop} (h : Judges ok P m Q)
    (hP : ∀ s, P' s → P s) (hQ : ∀ a s, Q a s → Q' a s) : Judges ok P' m Q' :=
  Triple.mono h hP (fun a s hok => ⟨hok.1, hQ a s hok.2⟩) fun _ he => he

theorem invalid {fault : OperandFault} : Judges ok P (invalid fault) Q :=
  Triple.throw (by simp [LowerError.isUnresolved])

theorem modify {f : State → State} {Q : Unit → State → Prop} (h : ∀ s, P s → Q () (f s)) :
    Judges True P (modify f) Q :=
  Triple.modify fun s hs => ⟨trivial, h s hs⟩

theorem get : Judges True P get fun t s => t = s ∧ P s :=
  Triple.get fun _ hs => ⟨trivial, rfl, hs⟩

/-- What is known apart from the state may be used at once. -/
theorem of_known {φ : Prop} (h : φ → Judges ok P m Q) : Judges ok (fun s => φ ∧ P s) m Q :=
  fun s hs => h hs.1 s hs.2

end Judges

/-! ### Where variables have slots -/

/-- The variables with a slot in the scope are those with these names, and the subroutines are those
of the environment. -/
structure State.Binds (env : Environment) (scope : Scope) (names : List String) (s : State) :
    Prop where
  slots : ∀ x, (⟨x, scope⟩ : Symbol) ∈ s.storage ↔ x ∈ names
  subroutines : ∀ f, f ∈ s.subroutines ↔ (env.returnTy? f).isSome
  scopes : ∀ symbol ∈ s.storage, Declared s symbol.scope
  here : Declared s scope

namespace State.Binds

variable {env env' : Environment} {scope : Scope} {names names' : List String} {s s' : State}

theorem of_eq (h : s.Binds env scope names) (hstorage : s'.storage = s.storage)
    (hsubs : s'.subroutines = s.subroutines) : s'.Binds env scope names := by
  have hdeclared : ∀ scope, Declared s scope → Declared s' scope :=
    fun _ hd => hd.mono fun f hf => hsubs ▸ hf
  refine ⟨?_, ?_, ?_, hdeclared _ h.here⟩
  · rw [hstorage]
    exact h.slots
  · rw [hsubs]
    exact h.subroutines
  · rw [hstorage]
    exact fun symbol hsymbol => hdeclared _ (h.scopes symbol hsymbol)

theorem congr (h : s.Binds env scope names) (henv : ∀ f, env'.returnTy? f = env.returnTy? f)
    (hnames : ∀ x, x ∈ names' ↔ x ∈ names) : s.Binds env' scope names' :=
  ⟨fun x => (h.slots x).trans (hnames x).symm,
    fun f => by rw [h.subroutines, henv], h.scopes, h.here⟩

/-- A scope that has been declared stays declared where there are more subroutines. -/
theorem declared_mono (h : s.Binds env scope names) (h' : s'.Binds env' scope names')
    (hext : env.Extends env') {other : Scope} (hd : Declared s other) : Declared s' other :=
  hd.mono fun f hf => (h'.subroutines f).mpr (hext f ((h.subroutines f).mp hf))

theorem withSlot (h : s.Binds env scope names) (x : String) (slot : Slot) :
    (s.withSlot ⟨x, scope⟩ slot).Binds env scope (x :: names) := by
  have hmem : ∀ symbol : Symbol, symbol ∈ (s.withSlot ⟨x, scope⟩ slot).storage ↔
      (⟨x, scope⟩ : Symbol) = symbol ∨ symbol ∈ s.storage := by
    intro symbol
    rw [← Std.LawfulEqOrd.compare_eq_iff_eq]
    exact Std.TreeMap.mem_insert
  refine ⟨fun y => ?_, h.subroutines, fun symbol hsymbol => ?_, h.here⟩
  · rw [hmem, h.slots, List.mem_cons, Symbol.mk.injEq, eq_comm, and_iff_left rfl]
  · rcases (hmem symbol).mp hsymbol with rfl | hold
    · exact h.here
    · exact h.scopes symbol hold

end State.Binds

instance {env : Environment} {scope : Scope} {names : List String} :
    Steady (State.Binds env scope names) :=
  ⟨fun hs _ => hs.of_eq rfl rfl⟩

/-! ### Steps that look up nothing -/

namespace Judges

variable {env : Environment} {scope : Scope} {names : List String}

theorem onFunction (change : FunctionDraft → α × FunctionDraft) :
    Judges True (State.Binds env scope names) (onFunction change)
    fun _ => State.Binds env scope names :=
  Triple.modifyGet fun _ hs => ⟨trivial, hs.of_eq rfl rfl⟩

theorem tryFunction (change : FunctionDraft → Except OperandFault (α × FunctionDraft)) :
    Judges True (State.Binds env scope names) (tryFunction change)
    fun _ => State.Binds env scope names := by
  refine get.followed fun t => ?_
  cases change t.function with
  | error fault => exact invalid
  | ok r => exact (modify fun _ hs => hs.2.of_eq rfl rfl).followed fun _ => Triple.pure fun _
    hs => ⟨trivial, hs⟩

theorem tryInstr (change : FunctionDraft → Except Fault (α × FunctionDraft)) :
    Judges True (State.Binds env scope names) (tryInstr change)
    fun _ => State.Binds env scope names :=
  tryFunction _

end Judges

/-! ### Expressions -/

/-- The computation needs these variables to be bound, and leaves the slots alone. -/
def Needs (env : Environment) (scope : Scope) (names : List String) (xs : List String)
    (m : Lowering α) : Prop :=
  Judges (xs ⊆ names) (State.Binds env scope names) m fun _ => State.Binds env scope names

namespace Needs

variable {env : Environment} {scope : Scope} {names : List String} {m : Lowering α}

theorem of_true
    (h : Judges True (State.Binds env scope names) m fun _ => State.Binds env scope names) :
    Needs env scope names [] m :=
  h.congr (iff_of_true trivial (List.nil_subset names))

theorem to_true (h : Needs env scope names [] m) :
    Judges True (State.Binds env scope names) m fun _ => State.Binds env scope names :=
  h.congr (iff_of_true (List.nil_subset names) trivial)

theorem pure (a : α) : Needs env scope names [] (pure a : Lowering α) :=
  Triple.pure fun _ hs => ⟨List.nil_subset names, hs⟩

theorem slotOf (x : String) : Needs env scope names [x] (slotOf ⟨x, scope⟩) := by
  intro s hs
  constructor
  · intro slot s' hrun
    obtain ⟨hslot, rfl⟩ := runs_slotOf.1 hrun
    refine ⟨?_, hs⟩
    rw [List.cons_subset, ← hs.slots, Std.TreeMap.mem_iff_isSome_getElem?, hslot]
    exact ⟨rfl, List.nil_subset _⟩
  · intro e he _ hbound
    have hmem := (hs.slots x).mpr (hbound List.mem_cons_self)
    rw [Std.TreeMap.mem_iff_isSome_getElem?, (fails_slotOf he).1] at hmem
    contradiction

theorem subroutineOf {name : String} (hname : (env.returnTy? name).isSome) (found : Nat) :
    Judges True (State.Binds env scope names) (subroutineOf scope name found) fun sub s =>
      found = sub.params.length ∧ s.Binds env scope names := by
  intro s hs
  constructor
  · intro sub s' hrun
    obtain ⟨-, hfound, rfl⟩ := runs_subroutineOf hrun
    exact ⟨trivial, hfound, hs⟩
  · intro e he hunresolved
    rcases fails_subroutineOf he with ⟨hnone, -⟩ | ⟨sub, -, rfl⟩
    · have hmem := (hs.subroutines name).mpr hname
      rw [Std.TreeMap.mem_iff_isSome_getElem?, hnone] at hmem
      contradiction
    · contradiction

theorem call (callee : String) (signature : Signature) (args : List Value) :
    Needs env scope names [] (call callee signature args) := by
  refine of_true ((Judges.onFunction _).followed fun value? => ?_)
  cases value? with
  | none => exact Judges.invalid
  | some value => exact (pure value).to_true

/-- **The code for an expression needs the variables that it reads**, where the subroutines that it
calls have been declared. -/
theorem reads :
    Reads (fun xs => Needs env scope names xs) scope fun f => (env.returnTy? f).isSome where
  pure := pure
  invalid _ _ := Judges.invalid
  bind hm hf := (Judges.bind hm hf).congr List.append_subset.symm
  look _ hf :=
  of_true (Judges.get.followed fun s => (hf s).to_true.weaken (fun _ hs => hs.2) fun _ _ hs => hs)
  arith _ _ _ := of_true (.onFunction _)
  icmp _ _ _ := of_true (.onFunction _)
  fcmp _ _ _ := of_true (.onFunction _)
  cast _ _ _ := of_true (.onFunction _)
  offset _ _ := of_true (.tryInstr _)
  firstByte _ := of_true (.tryInstr _)
  call := call
  run _ _ _ := of_true ((Judges.onFunction _).followed fun _ => (pure ()).to_true)
  format _ := of_true (Judges.get.followed fun _ => (Judges.tryFunction _).weaken (fun _ hs => hs.2)
    fun _ _ hs => hs)
  load _ := of_true (.tryInstr _)
  slotOf := slotOf
  subroutineOf _ hname hf huses :=
  (subroutineOf hname _).before fun sub => .of_known fun hfound => huses sub hfound ▸ hf sub

theorem internText (text : String) : Needs env scope names [] (internText text) :=
  Triple.modifyGet fun _ hs => ⟨List.nil_subset names, hs.of_eq rfl rfl⟩

theorem operand (e : Expr) (h : env.Declares e.calls) :
    Needs env scope names e.reads (operand scope e) :=
  reads.operand e h fun text _ => internText text

theorem valueOf (h : env.Declares e.calls) (want : Ty) :
    Needs env scope names e.reads (valueOf scope e want) :=
  reads.valueOf h (fun text _ => internText text) want

theorem truthOf (h : env.Declares e.calls) : Needs env scope names e.reads (truthOf scope e) :=
  reads.truthOf h fun text _ => internText text

theorem input {target : Target} (h : env.Declares target.calls) :
    Needs env scope names target.needs (input scope target) := by
  refine (reads.input h fun text _ => internText text).congr ?_
  cases target with
  | var name shape => rfl
  | element name index ty => simp [Target.lookups, Target.needs]

end Needs

end Lower

end Pseudocode
