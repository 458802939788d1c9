import Pseudocode.Proofs.Lower.Failure
import Pseudocode.Proofs.Lower.Stable

/-!
Code for a subroutine does not depend on the top level.

States are `Outside` alike if they differ in nothing but the function that is being made, the slots
of the top level and the log.  Two facts are shown of lowering, each as a stable property of its
steps.

  * Statements of the top level that declare no subroutine and hold no string leave everything
  outside alike
    (`block_leaves`).
  * The code of a subroutine is the same from states that are outside alike (`subroutine_agrees`).
  Inside of it the
    functions in the making are the same as well, and every step of lowering keeps that
    (`stable_agrees`).
-/

namespace Pseudocode.Lower

open Ir

variable {body : Lowering Unit} {join? : Option Nat} {rest? : Option (Nat → Lowering Unit)}
  {p q : Program} {name : String} {params : List Param}

/-! ### States that are alike outside of the top level -/

/-- The slots of the subroutines are the same. -/
def Storage.Outside (storage storage' : Storage) : Prop :=
  ∀ symbol : Symbol, symbol.scope ≠ .top → storage'[symbol]? = storage[symbol]?

namespace Storage.Outside

variable {storage storage' : Storage}

theorem insert (h : Storage.Outside storage storage') (symbol : Symbol) (slot : Slot) :
    Storage.Outside (storage.insert symbol slot) (storage'.insert symbol slot) := by
  intro other hother
  rw [Std.TreeMap.getElem?_insert, Std.TreeMap.getElem?_insert, h other hother]

theorem insert_top (h : Storage.Outside storage storage') (name : String) (slot : Slot) :
    Storage.Outside storage (storage'.insert ⟨name, .top⟩ slot) := by
  intro other hother
  rw [Std.TreeMap.getElem?_insert, if_neg, h other hother]
  intro heq
  rw [Std.LawfulEqCmp.compare_eq_iff_eq] at heq
  exact hother (by rw [← heq])

theorem join {theirs theirs' : Storage} (h : Storage.Outside storage storage')
    (h' : Storage.Outside theirs theirs') :
    Storage.Outside (storage.join theirs) (storage'.join theirs') := by
  intro symbol hsymbol
  rw [Storage.getElem?_join, Storage.getElem?_join, h symbol hsymbol, h' symbol hsymbol]

/-- Where both paths leave something alike, so does what is known where they meet. -/
theorem meet {ours theirs : Storage} (h : Storage.Outside storage ours)
    (h' : Storage.Outside storage theirs) : Storage.Outside storage (ours.join theirs) := by
  intro symbol hsymbol
  rw [Storage.getElem?_join, h symbol hsymbol, h' symbol hsymbol]
  cases storage[symbol]? with
  | none => rfl
  | some slot => simp [Slot.meet]

theorem forgetLengths (h : Storage.Outside storage storage') (scope : Scope) :
    Storage.Outside (storage.forgetLengths scope) (storage'.forgetLengths scope) := by
  intro symbol hsymbol
  rw [Storage.getElem?_forgetLengths, Storage.getElem?_forgetLengths, h symbol hsymbol]

theorem forgetLengths_top (h : Storage.Outside storage storage') :
    Storage.Outside storage (storage'.forgetLengths .top) := by
  intro symbol hsymbol
  rw [Storage.getElem?_forgetLengths, h symbol hsymbol]
  cases storage[symbol]? with
  | none => rfl
  | some slot => simp [hsymbol]

end Storage.Outside

/-- Nothing differs but the function in the making, the slots of the top level and the log. -/
structure State.Outside (s t : State) : Prop where
  module : t.module = s.module
  routines : t.routines = s.routines
  subroutines : t.subroutines = s.subroutines
  storage : Storage.Outside s.storage t.storage

theorem State.Outside.refl (s : State) : s.Outside s :=
  ⟨rfl, rfl, rfl, fun _ _ => rfl⟩

theorem State.Outside.both {s₀ s t : State} (h : s₀.Outside s) (h' : s₀.Outside t) : s.Outside t :=
  ⟨h'.module.trans h.module.symm, h'.routines.trans h.routines.symm,
    h'.subroutines.trans h.subroutines.symm,
    fun symbol hsymbol => (h'.storage symbol hsymbol).trans (h.storage symbol hsymbol).symm⟩

/-! ### Statements of the top level -/

/-- The program declares no subroutine and holds no string. -/
def PlainProgram (p : Program) : Prop :=
  headersAll p = [] ∧ stringsAll p = []

instance {s₀ : State} : Steady s₀.Outside :=
  ⟨fun hs _ => ⟨hs.module, hs.routines, hs.subroutines, hs.storage⟩⟩

/-- From states that are alike outside of the top level, the lowering leads to such states. -/
def Leaves (s₀ : State) {α : Type} (m : Lowering α) : Prop :=
  Triple s₀.Outside m (fun _ => s₀.Outside) fun _ => True

namespace Leaves

variable {s₀ : State} {α : Type}

theorem get : Leaves s₀ get :=
  Triple.get fun _ hs => hs

theorem tryFunction (change : FunctionDraft → Except OperandFault (α × FunctionDraft)) :
    Leaves s₀ (tryFunction change) := by
  refine get.bind fun t => ?_
  cases change t.function with
  | error fault => exact Triple.throw trivial
  | ok found =>
    refine Triple.bind (Triple.modify fun _ hs => ?_) fun _ => Triple.pure fun _ hs => hs
    exact ⟨hs.module, hs.routines, hs.subroutines, hs.storage⟩

/-- Steps in the scope of the top level leave everything outside alike. -/
theorem stable (s₀ : State) : Stable (Leaves s₀) .top where
  pure _ := Triple.pure fun _ hs => hs
  throw _ := Triple.throw trivial
  bind hm hf := hm.bind hf
  look _ hf := get.bind hf
  tell _ := Triple.modify fun _ hs => ⟨hs.module, hs.routines, hs.subroutines, hs.storage⟩
  onFunction _ := Triple.modifyGet fun _ hs => ⟨hs.module, hs.routines, hs.subroutines, hs.storage⟩
  tryFunction := tryFunction
  setSlot name slot := Triple.modify fun _ hs =>
    ⟨hs.module, hs.routines, hs.subroutines, hs.storage.insert_top name slot⟩
  forget := Triple.modify fun _ hs => ⟨hs.module, hs.routines, hs.subroutines,
    hs.storage.forgetLengths_top⟩
  arm _ _ _ _ hcondition hbody hrest := Triple.arm hcondition hbody
    (fun _ _ hs ht => ⟨ht.module, ht.routines, ht.subroutines, hs.storage⟩) hrest (fun _ _ hs => hs)
    fun _ _ hs ht => ⟨ht.module, ht.routines, ht.subroutines, ht.storage.meet hs.storage⟩

end Leaves

/-- **Statements of the top level without subroutines and strings leave everything outside
alike.** -/
theorem block_leaves (hp : PlainProgram p) {s s' : State} {u : Unit}
    (h : Runs (block .top p) s u s') : s.Outside s' := by
  have hblock : Leaves s (block .top p) := by
    refine block_stable (S := (· = .top)) (fun scope hscope => hscope ▸ Leaves.stable s) .top
      rfl p ?_ ?_
    · simp [hp.2]
    · simp [hp.1]
  exact (hblock s (.refl s)).1 u s' h

/-! ### Two runs of a lowering -/

/-- Begun in states that `R` relates, the lowerings succeed and end as `Q` says, or they fail with
the same error. -/
def Matches (R : State → State → Prop) {α : Type} (m n : Lowering α)
    (Q : α → α → State → State → Prop) : Prop :=
  ∀ s t, R s t → match outcome m s, outcome n t with
    | (.ok a, s'), (.ok b, t') => Q a b s' t'
    | (.error e, _), (.error e', _) => e' = e
    | _, _ => False

namespace Matches

variable {R : State → State → Prop} {α β : Type} {m n : Lowering α}
  {Q : α → α → State → State → Prop}

theorem bind {f g : α → Lowering β} {T : β → β → State → State → Prop} (hm : Matches R m n Q)
    (hf : ∀ a b, Matches (Q a b) (f a) (g b) T) : Matches R (m >>= f) (n >>= g) T := by
  intro s t hst
  have hfirst := hm s t hst
  rw [outcome_bind, outcome_bind]
  rcases hs : outcome m s with ⟨_ | a, s'⟩ <;> rcases ht : outcome n t with ⟨_ | b, t'⟩ <;>
    rw [hs, ht] at hfirst
  · exact hfirst
  · exact hfirst.elim
  · exact hfirst.elim
  · exact hf a b s' t' hfirst

theorem mono {R' : State → State → Prop} {Q' : α → α → State → State → Prop} (h : Matches R m n Q)
    (hR : ∀ s t, R' s t → R s t) (hQ : ∀ a b s t, Q a b s t → Q' a b s t) : Matches R' m n Q' := by
  intro s t hst
  have hm := h s t (hR s t hst)
  rcases hs : outcome m s with ⟨_ | a, s'⟩ <;> rcases ht : outcome n t with ⟨_ | b, t'⟩ <;>
    rw [hs, ht] at hm
  · exact hm
  · exact hm.elim
  · exact hm.elim
  · exact hQ a b s' t' hm

theorem throw (e : LowerError) : Matches R (throw e : Lowering α) (throw e) Q :=
  fun _ _ _ => rfl

theorem get : Matches R get get fun a b s t => s = a ∧ t = b ∧ R s t :=
  fun _ _ hst => ⟨rfl, rfl, hst⟩

theorem modifyGet {f g : State → α × State} (h : ∀ s t, R s t → Q (f s).1 (g t).1 (f s).2 (g t).2) :
    Matches R (modifyGet f : Lowering α) (modifyGet g) Q :=
  h

theorem modify {f g : State → State} {Q : Unit → Unit → State → State → Prop}
    (h : ∀ s t, R s t → Q () () (f s) (g t)) : Matches R (modify f : Lowering Unit) (modify g) Q :=
  h

end Matches

/-- From states that are related, a lowering gives the same and leads to related states. -/
def Agrees (R : State → State → Prop) {α : Type} (m : Lowering α) : Prop :=
  Matches R m m fun a b s t => b = a ∧ R s t

namespace Agrees

variable {R : State → State → Prop} {α β : Type}

theorem pure (a : α) : Agrees R (pure a) :=
  fun _ _ hst => ⟨rfl, hst⟩

theorem throw (e : LowerError) : Agrees R (throw e : Lowering α) :=
  Matches.throw e

theorem bind {m : Lowering α} {f : α → Lowering β} (hm : Agrees R m) (hf : ∀ a, Agrees R (f a)) :
    Agrees R (m >>= f) := by
  refine Matches.bind hm fun a b s t ⟨hab, hst⟩ => ?_
  subst hab
  exact hf b s t hst

theorem look {f : State → Lowering α} (hsame : ∀ s t, R s t → f t = f s)
    (hf : ∀ s, Agrees R (f s)) : Agrees R (get >>= f) := by
  refine Matches.bind Matches.get fun a b s t ⟨ha, hb, hst⟩ => ?_
  subst ha hb
  rw [hsame s t hst]
  exact hf s s t hst

theorem mapM {f : α → Lowering β} (hf : ∀ a, Agrees R (f a)) (as : List α) :
    Agrees R (as.mapM f) := by
  induction as with
  | nil => exact pure []
  | cons a as ih =>
    rw [List.mapM_cons]
    exact (hf a).bind fun _ => ih.bind fun _ => pure _

theorem irTy (ty : Ty) : Agrees R (irTy ty) := by
  cases ty with
  | undetermined => exact throw _
  | _ => exact pure _

end Agrees

/-! ### Code of subroutines -/

/-- The states are alike outside of the top level, and so are the functions in the making. -/
structure State.Beside (s t : State) : Prop extends s.Outside t where
  function : t.function = s.function

/-- The states are alike outside of the top level, and these are the functions in the making. -/
def State.Apart (f g : FunctionDraft) (s t : State) : Prop :=
  s.Outside t ∧ s.function = f ∧ t.function = g

theorem State.Beside.sameView {s t : State} (h : s.Beside t) {scope : Scope}
    (hscope : scope ≠ .top) : s.SameView scope t :=
  ⟨h.routines, h.subroutines, h.function, fun _ => h.storage _ hscope⟩

namespace Agrees

variable {α : Type} {scope : Scope}

theorem onFunction (change : FunctionDraft → α × FunctionDraft) :
    Agrees State.Beside (onFunction change) :=
  Matches.modifyGet fun s t hst => by
    rw [hst.function]
    exact ⟨rfl, ⟨hst.module, hst.routines, hst.subroutines, hst.storage⟩, rfl⟩

theorem tryFunction (change : FunctionDraft → Except OperandFault (α × FunctionDraft)) :
    Agrees State.Beside (tryFunction change) := by
  refine look (fun s t hst => by rw [hst.function]) fun s => ?_
  cases change s.function with
  | error fault => exact throw _
  | ok found =>
    refine bind (m := modify _) ?_ fun _ => pure _
    exact Matches.modify
      fun s t hst => ⟨rfl, ⟨hst.module, hst.routines, hst.subroutines, hst.storage⟩, rfl⟩

theorem fallThrough (block : Nat) : Agrees State.Beside (fallThrough block) := by
  refine look (fun s t hst => by rw [hst.function]) fun s => ?_
  split
  · exact pure _
  · exact onFunction _

theorem internText (text : String) : Agrees State.Beside (internText text) :=
  Matches.modifyGet fun s t hst => by
    rw [hst.module]
    exact ⟨rfl, ⟨rfl, hst.routines, hst.subroutines, hst.storage⟩, hst.function⟩

/-- After an arm the storage is the one from before it, and the one that it leaves is alike
outside. -/
theorem thenArm (hbody : Agrees State.Beside body) (thenBlock join : Nat) :
    Matches State.Beside (arm.thenArm body thenBlock join) (arm.thenArm body thenBlock join)
      fun a b s t => Storage.Outside a b ∧ s.Beside t := by
  refine Matches.bind Matches.get fun before before' s t ⟨hs, ht, hst⟩ => ?_
  subst hs ht
  have hrun : Agrees State.Beside (do switchTo thenBlock; body; Lower.fallThrough join) :=
    (onFunction _).bind fun _ => hbody.bind fun _ => fallThrough join
  have hswap : ∀ u v :
    Unit, Matches (fun s t => v = u ∧ s.Beside t) (swapStorage s.storage) (swapStorage t.storage)
      fun a b s t => Storage.Outside a b ∧ s.Beside t :=
        fun u v => Matches.modifyGet fun s' t' ⟨_, h⟩ =>
    ⟨h.storage, ⟨h.module, h.routines, h.subroutines, hst.storage⟩, h.function⟩
  simpa [bind_assoc] using Matches.bind hrun hswap s t hst

theorem finish {join : Nat} {after after' : Storage} (h : Storage.Outside after after') :
    Matches State.Beside (arm.finish join? join after) (arm.finish join? join after')
      fun a b s t => b = a ∧ s.Beside t := by
  have hlast : Agrees State.Beside (if join?.isNone then switchTo join else Pure.pure ()) := by
    split
    · exact onFunction _
    · exact pure ()
  refine Matches.bind (Q := fun _ _ s t => s.Beside t) (Matches.modify fun s t hst => ?_)
    fun _ _ => hlast
  exact ⟨⟨hst.module, hst.routines, hst.subroutines, hst.storage.join h⟩, hst.function⟩

theorem arm {condition : Expr} (htruth : Agrees State.Beside (truthOf scope condition))
    (hbody : Agrees State.Beside body)
    (hrest : ∀ rest, rest? = some rest → ∀ join, Agrees State.Beside (rest join)) :
    Agrees State.Beside (arm scope condition join? body rest?) := by
  have hjoin : Agrees State.Beside (arm.joinBlock join?) := by
    cases join? with
    | some join => exact pure join
    | none => exact onFunction fun f => f.createBlock "if.end"
  refine htruth.bind fun truth => (onFunction _).bind fun thenBlock => ?_
  cases rest? with
  | none =>
    refine hjoin.bind fun join => (onFunction _).bind fun _ => ?_
    exact Matches.bind (thenArm hbody thenBlock join) fun after after' s t
      ⟨hafter, hst⟩ => finish hafter s t hst
  | some rest =>
    refine (onFunction _).bind fun elseBlock => hjoin.bind fun join => (onFunction _).bind
      fun _ => ?_
    refine Matches.bind (thenArm hbody thenBlock join) fun after after' s t ⟨hafter, hst⟩ => ?_
    have helse : Agrees State.Beside (do switchTo elseBlock; rest join) :=
      (onFunction _).bind fun _ => hrest rest rfl join
    simpa [bind_assoc] using Matches.bind helse (fun _ _ s t hst => finish hafter s t hst.2) s t hst

/-- **Code of subroutines is lowered alike.** -/
theorem stable (hscope : scope ≠ .top) : Stable (Agrees State.Beside) scope where
  pure := pure
  throw := throw
  bind := bind
  look hsame := look fun s t hst => hsame s t (hst.sameView hscope)
  tell _ := Matches.modify fun _ _ hst =>
    ⟨rfl, ⟨hst.module, hst.routines, hst.subroutines, hst.storage⟩, hst.function⟩
  onFunction := onFunction
  tryFunction := tryFunction
  setSlot _ _ := Matches.modify fun _ _ hst =>
    ⟨rfl, ⟨hst.module, hst.routines, hst.subroutines, hst.storage.insert _ _⟩, hst.function⟩
  forget := Matches.modify fun _ _ hst =>
    ⟨rfl, ⟨hst.module, hst.routines, hst.subroutines, hst.storage.forgetLengths _⟩, hst.function⟩
  arm _ _ _ _ := arm

theorem inFunction {f g : FunctionDraft} {params : List Ir.Param} {ret : Ir.Ty}
    {code : Lowering Unit}
    (hcode : Agrees State.Beside code) :
    Agrees (State.Apart f g) (inFunction name params ret code) := by
  refine Matches.bind Matches.get fun a b s t ⟨ha, hb, hst⟩ => ?_
  subst ha hb
  obtain ⟨hout, hf, hg⟩ := hst
  have henter : Matches State.Outside
      (modify fun s : State => { s with function := FunctionDraft.start name params ret } :
        Lowering Unit)
      (modify fun s : State => { s with function := FunctionDraft.start name params ret })
      fun _ _ s t => s.Beside t :=
    Matches.modify fun s t hst => ⟨⟨hst.module, hst.routines, hst.subroutines, hst.storage⟩, rfl⟩
  have hleave : Matches State.Beside
      (modify fun s' : State =>
        { s' with module := s'.module.addFunction s'.function.build, function := s.function } :
        Lowering Unit)
      (modify fun t' : State =>
        { t' with module := t'.module.addFunction t'.function.build, function := t.function })
      fun a b s t => b = a ∧ s.Apart f g t := by
    refine Matches.modify
      fun s t hst => ⟨rfl, ⟨?_, hst.routines, hst.subroutines, hst.storage⟩, hf, hg⟩
    dsimp only
    rw [hst.module, hst.function]
  exact Matches.bind henter (fun _ _ => Matches.bind hcode fun _ _ s t hst => hleave s t hst.2) s t
    hout

theorem defaultValue {R : State → State → Prop} (ty : Ty) : Agrees R (defaultValue ty) := by
  cases ty with
  | int => exact pure _
  | double => exact pure _
  | _ => exact throw _

/-- **A subroutine is lowered alike**, whatever functions are in the making. -/
theorem subroutine {f g : FunctionDraft} {ty : Ty} (hbody : Agrees State.Beside body) :
    Agrees (State.Apart f g) (subroutine name params ty body) := by
  have hs : Stable (Agrees State.Beside) (.subroutine name) := stable nofun
  unfold Lower.subroutine
  by_cases hreserved : name ∈ Routines.reserved
  · rw [if_pos hreserved]
    exact throw _
  rw [if_neg hreserved]
  refine look (fun s t hst => by rw [hst.1.subroutines]) fun s => ?_
  by_cases hnew : s.subroutines.contains name = true
  · rw [if_pos hnew]
    exact throw _
  rw [if_neg hnew]
  refine (mapM (fun p => (irTy p.ty).bind fun _ => pure _) params).bind
    fun irParams => (irTy ty).bind fun ret => ?_
  refine bind (m := modify _) ?_ fun _ => inFunction ?_
  · refine Matches.modify fun s t
      ⟨hst, hf, hg⟩ => ⟨rfl, ⟨hst.module, hst.routines, ?_, hst.storage⟩, hf, hg⟩
    dsimp only
    rw [hst.subroutines]
  · refine (hs.storeParams _).bind fun _ => hbody.bind
      fun _ => hs.look (fun s t hst => by rw [hst.function]) fun s => ?_
    split
    · exact pure _
    · exact (defaultValue ty).bind fun value => onFunction _

theorem subroutine_within {ty : Ty} (hbody : Agrees State.Beside body) :
    Agrees State.Beside (Lower.subroutine name params ty body) := by
  intro s t hst
  have hsub : Matches (State.Apart s.function s.function) (Lower.subroutine name params ty body)
      (Lower.subroutine name params ty body) fun a b s t => b = a ∧ s.Beside t :=
    Matches.mono (subroutine hbody) (fun _ _ h => h) fun a b s' t' ⟨hab, hout, hs, ht⟩ =>
      ⟨hab, hout, ht.trans hs.symm⟩
  exact hsub s t ⟨hst.toOutside, rfl, hst.function⟩

end Agrees

/-- **The declaration of a subroutine is lowered alike.** -/
theorem declaration_agrees (f g : FunctionDraft) (name : String) (params : List Param)
    (body : List Stmt) (ty : Ty) :
    Agrees (State.Apart f g) (statement .top (.subroutine name params body ty)) := by
  have hbody : Agrees State.Beside (block (.subroutine name) body) := by
    refine block_stable (S := (· ≠ .top)) (fun scope hscope => Agrees.stable hscope)
      (.subroutine name) nofun body
      (fun text _ => Agrees.internText text)
      fun header _ => ⟨nofun, fun body => Agrees.subroutine_within⟩
  rw [statement.eq_def]
  refine Agrees.bind (m := tell _) ?_ fun _ => Agrees.subroutine hbody
  exact Matches.modify fun s t
    ⟨hst, hf, hg⟩ => ⟨rfl, ⟨hst.module, hst.routines, hst.subroutines, hst.storage⟩, hf, hg⟩

/-! ### Programs -/

/-- After some statements, the rest of a program is lowered as if it were the program. -/
theorem outcome_program_append {s s₁ : State} (h : Runs (block .top p) s () s₁) :
    outcome (program (p ++ q)) s = outcome (program q) s₁ := by
  have hprogram : program (p ++ q) = block .top p >>= fun _ => program q := by
    simp [program, block_append]
  rw [hprogram, outcome_bind, h]

/-- The modules differ in nothing but the code of the top level, which comes last. -/
def SameButMain (m m' : Module) : Prop :=
  ∃ fs main main', m.functions = fs ++ [main] ∧ m' = { m with functions := fs ++ [main'] }

theorem program_matches (f g : FunctionDraft) (name : String) (params : List Param)
    (body : List Stmt) (ty : Ty) :
    Matches (State.Apart f g) (program [.subroutine name params body ty])
    (program [.subroutine name params body ty])
      fun m m' _ _ => SameButMain m m' := by
  have hblock : Agrees (State.Apart f g) (block .top [.subroutine name params body ty]) := by
    rw [block]
    exact (declaration_agrees f g name params body ty).bind fun _ => Agrees.pure ()
  let finish : Lowering Module := do
    leave (.i32 0)
    let s ← get
    return (s.module.addFunction s.function.build).build
  have hfinish : Matches State.Outside finish finish fun m m' _ _ => SameButMain m m' := by
    have hleave :
      Matches State.Outside (leave (.i32 0)) (leave (.i32 0)) fun _ _ s t => s.Outside t :=
      Matches.modifyGet fun s t hst => ⟨hst.module, hst.routines, hst.subroutines, hst.storage⟩
    refine Matches.bind hleave fun _ _ => Matches.bind Matches.get fun a b s t ⟨hs, ht, hst⟩ => ?_
    subst hs ht
    refine ⟨s.module.functions.toList, s.function.build, t.function.build, Array.toList_push, ?_⟩
    show (t.module.addFunction t.function.build).build = _
    rw [hst.module]
    simp [ModuleDraft.build, ModuleDraft.addFunction]
  exact Matches.bind hblock fun _ _ s t hst => hfinish s t hst.2.1

/-- **The code of a subroutine does not depend on what stands before it.**  Either both programs
have code, which differs in `main` only, or both fail for the same reason. -/
theorem generate_insulated {n sourceName target : String} {mp mq : Module} (hp : PlainProgram p)
    (hq : PlainProgram q) (hpm : (generate n sourceName target p).1 = .ok mp)
    (hqm : (generate n sourceName target q).1 = .ok mq) (name : String) (params : List Param)
    (body : List Stmt) (ty : Ty) :
    (∃ m m', (generate n sourceName target (p ++ [.subroutine name params body ty])).1 = .ok m ∧
      (generate n sourceName target (q ++ [.subroutine name params body ty])).1 = .ok m' ∧
      SameButMain m m') ∨
    ∃ e, (generate n sourceName target (p ++ [.subroutine name params body ty])).1 = .error e ∧
      (generate n sourceName target (q ++ [.subroutine name params body ty])).1 = .error e := by
  obtain ⟨_, hprun⟩ := runs_of_generate hpm
  obtain ⟨s, hps, -⟩ := runs_program hprun
  obtain ⟨_, hqrun⟩ := runs_of_generate hqm
  obtain ⟨t, hqt, -⟩ := runs_program hqrun
  have hst := (block_leaves hp hps).both (block_leaves hq hqt)
  have hboth := program_matches s.function t.function name params body ty s t ⟨hst, rfl, rfl⟩
  rw [← outcome_program_append hps, ← outcome_program_append hqt] at hboth
  show (∃ m m', (outcome (program _) _).1 = _ ∧ (outcome (program _) _).1 = _ ∧ _) ∨
    ∃ e, (outcome (program _) _).1 = _ ∧ (outcome (program _) _).1 = _
  split at hboth
  · rename_i m _ m' _ hm hm'
    exact .inl ⟨m, m', by rw [hm], by rw [hm'], hboth⟩
  · rename_i e _ e' _ he he'
    subst hboth
    exact .inr ⟨e', by rw [he], by rw [he']⟩
  · exact hboth.elim

end Pseudocode.Lower
