import Pseudocode.Proofs.Grammar.Statements
import Pseudocode.Proofs.Scoping.Needs

/-!
Names that stand for nothing.

Code generation and `scoped` go through a program in the same order.  A statement gives slots to the
variables that it binds, so at every place the variables with a slot are those that `scoped` takes
to be bound (`State.Binds`). Therefore code is generated only for scoped programs, and a program
that is scoped does not fail for a name.
-/

namespace Pseudocode

open Lower

variable {x name : String} {params : List Param}

namespace Lower

open Ir

variable {env env₁ env₂ : Environment} {scope : Scope} {names : List String}

/-! ### Storing values -/

theorem State.Binds.rebound {s : State} {slot : Slot} (h : s.Binds env scope names)
    (hslot : s.storage[(⟨x, scope⟩ : Symbol)]? = some slot) : s.Binds env scope (x :: names) := by
  have hx : x ∈ names := by
    rw [← h.slots, Std.TreeMap.mem_iff_isSome_getElem?, hslot]
    rfl
  refine h.congr (fun _ => rfl) fun y => ?_
  rw [List.mem_cons, or_iff_right_of_imp]
  rintro rfl
  exact hx

namespace Judges

theorem setSlot (x : String) (slot : Slot) :
    Judges True (State.Binds env scope names) (setSlot ⟨x, scope⟩ slot)
    fun _ => State.Binds env scope (x :: names) :=
  modify fun _ hs => hs.withSlot x slot

theorem reuse {α : Type} {m : Lowering α} {Q : α → State → Prop} {t : State} {slot : Slot}
    (hslot : t.storage[(⟨x, scope⟩ : Symbol)]? = some slot)
    (h : Judges True (State.Binds env scope (x :: names)) m Q) :
    Judges True (fun s => t = s ∧ s.Binds env scope names) m Q :=
  h.weaken (fun _ hs => hs.2.rebound (hs.1 ▸ hslot)) fun _ _ hs => hs

theorem scalarSlot (x : String) (ty : Ty) :
    Judges True (State.Binds env scope names) (scalarSlot ⟨x, scope⟩ ty)
    fun _ => State.Binds env scope (x :: names) := by
  have hfresh :
    ∀ t, Judges True (fun s => t = s ∧ s.Binds env scope names) (scalarSlot.fresh ⟨x, scope⟩ ty)
      fun _ => State.Binds env scope (x :: names) := by
    intro t
    refine Judges.weaken ?_ (fun _ hs => hs.2) fun _ _ hs => hs
    exact (Needs.reads.irTy ty).to_true.followed fun _ => (onFunction _).followed
      fun _ => (setSlot x _).followed fun _ =>
      (Needs.pure _).to_true
  refine get.followed fun t => ?_
  split
  · next slot hslot =>
      split
      · exact reuse hslot ((Needs.pure _).to_true)
      · exact hfresh t
  · exact hfresh t

theorem stringBuffer (x : String) (length : Nat) : Judges True (State.Binds env scope names)
    (stringBuffer ⟨x, scope⟩ length) fun _ => State.Binds env scope (x :: names) := by
  have hfresh :
    ∀ t, Judges True (fun s => t = s ∧ s.Binds env scope names)
    (stringBuffer.fresh ⟨x, scope⟩ length)
      fun _ => State.Binds env scope (x :: names) := by
    intro t
    refine Judges.weaken ?_ (fun _ hs => hs.2) fun _ _ hs => hs
    exact (onFunction _).followed fun _ => (tryInstr _).followed
      fun _ => ((Needs.reads.byteCount _).to_true).followed fun _ =>
      ((Needs.reads.malloc _).to_true).followed fun _ => (tryInstr _).followed
        fun _ => (setSlot x _).followed fun _ =>
        (Needs.pure _).to_true
  refine get.followed fun t => ?_
  split
  · next slot hslot =>
      split
      · split
        · exact reuse hslot (tryInstr _)
        · refine Judges.weaken ?_ (fun _ hs => hs.2) fun _ _ hs => hs
          exact (tryInstr _).followed fun _ => ((Needs.reads.byteCount _).to_true).followed fun _ =>
            ((Needs.reads.realloc _ _).to_true).followed fun _ => (tryInstr _).followed fun _ =>
              (setSlot x _).followed fun _ => (Needs.pure _).to_true
      · exact hfresh t
  · exact hfresh t

theorem assign {a : Assignment} (hvalue : env.Declares a.value.calls)
    (htarget : env.Declares a.target.calls) :
    Judges (a.needs ⊆ names) (State.Binds env scope names) (assign scope a)
      fun _ => State.Binds env scope (a.binds ++ names) := by
  rw [Lower.assign, Assignment.needs, Assignment.binds]
  have hread : ∀ want, Needs env scope names a.value.reads (valueOf scope a.value want) :=
    Needs.valueOf hvalue
  cases hplace : a.target with
  | var name shape =>
    dsimp only
    split
    · exact Judges.followed (hread .string) fun source => (stringBuffer name shape.length).followed
        fun buffer =>
        ((Needs.reads.byteCount _).to_true).followed fun size => (Needs.reads.memcpy _ _ _).to_true
    · exact Judges.followed (hread shape.ty) fun value => (scalarSlot name shape.ty).followed
        fun address =>
        tryInstr _
  | element name index ty =>
    rw [hplace] at htarget
    have haddress : Needs env scope names (name :: index.reads)
        (elementAddress ⟨name, scope⟩ (operand scope index)) :=
      Needs.reads.elementAddress _ (Needs.operand index htarget) name
    exact (Judges.bind (Needs.reads.elementTy name) fun ty => Judges.bind (hread ty) fun value =>
      Judges.followed haddress fun address => tryInstr _).congr (by simp +contextual)

theorem declareArray {ty : Ty} {size : Expr} (h : env.Declares size.calls) (name : String) :
    Judges (size.reads ⊆ names) (State.Binds env scope names) (declareArray scope ty name size)
      fun _ => State.Binds env scope (name :: names) := by
  refine Judges.followed (Needs.valueOf h .int) fun count => (onFunction _).followed fun wide =>
    ((Needs.reads.malloc _).to_true).followed fun memory => ((Needs.reads.irTy _).to_true).followed
      fun element =>
      (onFunction _).followed fun first => get.followed fun t => ?_
  have hfresh : ∀ slot : Value → Slot, Judges True (fun s => t = s ∧ s.Binds env scope names) (do
        let address ← reserve name (.ptr element)
        Lower.setSlot ⟨name, scope⟩ (slot address)
        return address) fun _ => State.Binds env scope (name :: names) := by
    intro slot
    refine Judges.weaken ?_ (fun _ hs => hs.2) fun _ _ hs => hs
    exact (onFunction _).followed fun _ => (setSlot name _).followed fun _ => (Needs.pure _).to_true
  split
  · next slot hslot =>
      split
      · exact reuse hslot (((Needs.pure _).to_true).followed fun _ => tryInstr _)
      · exact (hfresh _).followed fun _ => tryInstr _
  · exact (hfresh _).followed fun _ => tryInstr _

end Judges

/-! ### Conditionals and loops -/

theorem mem_join {ours theirs : Storage} {symbol : Symbol} :
    symbol ∈ ours.join theirs ↔ symbol ∈ ours ∨ symbol ∈ theirs := by
  simp only [Std.TreeMap.mem_iff_isSome_getElem?, Storage.getElem?_join]
  cases ours[symbol]? with
  | none => simp
  | some slot => simp

theorem mem_forgetLengths {storage : Storage} {scope : Scope} {symbol : Symbol} :
    symbol ∈ storage.forgetLengths scope ↔ symbol ∈ storage := by
  rw [Std.TreeMap.mem_iff_isSome_getElem?, Std.TreeMap.mem_iff_isSome_getElem?,
    Storage.getElem?_forgetLengths, Option.isSome_map]

namespace State.Binds

variable {s s₁ s₂ s₃ : State} {names₂ names₃ : List String}

theorem entered (h : s.Binds env scope names) :
    State.Binds env scope names { s with storage := s.storage.forgetLengths scope } :=
  ⟨fun x => mem_forgetLengths.trans (h.slots x), h.subroutines,
    fun symbol hsymbol => h.scopes symbol (mem_forgetLengths.mp hsymbol), h.here⟩

/-- What follows the body of an arm has the slots from before it, and the subroutines that the body
has declared. -/
theorem restored (h₁ : s₁.Binds env scope names) (h₂ : s₂.Binds env₁ scope names₂)
    (hext : env.Extends env₁) : State.Binds env₁ scope names { s₂ with storage := s₁.storage } :=
  ⟨h₁.slots, h₂.subroutines,
    fun symbol hsymbol => h₁.declared_mono h₂ hext (h₁.scopes symbol hsymbol), h₂.here⟩

theorem joined (h₂ : s₂.Binds env₁ scope names₂) (h₃ : s₃.Binds env₂ scope names₃)
    (hext : env₁.Extends env₂) :
    State.Binds env₂ scope (names₂ ++ names₃)
    { s₃ with storage := s₃.storage.join s₂.storage } := by
  refine ⟨fun x => ?_, h₃.subroutines, fun symbol hsymbol => ?_, h₃.here⟩
  · rw [mem_join, h₃.slots, h₂.slots, List.mem_append, or_comm]
  · rcases mem_join.mp hsymbol with hours | htheirs
    · exact h₃.scopes symbol hours
    · exact h₂.declared_mono h₃ hext (h₂.scopes symbol htheirs)

end State.Binds

namespace Judges

/-- An arm of a conditional.  What follows its body is judged with the names from before the
body. -/
theorem arm {condition : Expr} {join? : Option Nat} {body : Lowering Unit}
    {rest? : Option (Nat → Lowering Unit)}
    {okBody okRest : Prop} {bs rs : List String} (hcondition : env.Declares condition.calls)
    (hext₁ : env.Extends env₁) (hext₂ : env₁.Extends env₂)
    (hbody : Judges okBody (State.Binds env scope names) body
      fun _ => State.Binds env₁ scope (bs ++ names))
    (hrest : ∀ rest, rest? = some rest →
      ∀ join, Judges okRest (State.Binds env₁ scope names) (rest join)
      fun _ => State.Binds env₂ scope (rs ++ names))
    (hnone : rest? = none → okRest ∧ env₂ = env₁ ∧ rs = []) :
    Judges ((condition.reads ⊆ names ∧ okBody) ∧ okRest) (State.Binds env scope names)
      (arm scope condition join? body rest?) fun _ => State.Binds env₂ scope
      ((bs ++ rs) ++ names) := by
  refine Triple.arm (I := fun s => condition.reads ⊆ names ∧ s.Binds env scope names)
    (J := fun s => (condition.reads ⊆ names ∧ okBody) ∧ s.Binds env₁ scope (bs ++ names))
    (K := fun s => (condition.reads ⊆ names ∧ okBody) ∧ s.Binds env₁ scope names)
    (L := fun s => ((condition.reads ⊆ names ∧ okBody) ∧ okRest) ∧ s.Binds env₂ scope (rs ++ names))
    ((Needs.truthOf hcondition).widen fun hok => hok.1.1) (hbody.carry fun hok => hok.1.2)
    (fun s t hs ht => ⟨ht.1, hs.2.restored ht.2 hext₁⟩)
    (fun rest hsome join => (hrest rest hsome join).carry And.right)
    (fun halone s hs => ?_) fun s t hs ht => ⟨ht.1, (hs.2.joined ht.2 hext₂).congr (fun _ => rfl)
      fun x => ?_⟩
  · obtain ⟨hok, rfl, rfl⟩ := hnone halone
    exact ⟨⟨hs.1, hok⟩, hs.2⟩
  · simp only [List.mem_append]
    tauto

/-- A loop.  Its condition is judged with the names that its body and its step bind. -/
theorem loop {kind : String} {body step : Lowering Unit} {condition : Expr} {ok : Prop}
    {names₁ xs : List String}
    (hbody : Judges ok (State.Binds env scope names) body fun _ => State.Binds env₁ scope names₁)
    (hstep : Judges True (State.Binds env₁ scope names₁) step
      fun _ => State.Binds env₁ scope names₁)
    (hcondition : Needs env₁ scope names₁ xs (truthOf scope condition)) :
    Judges (ok ∧ xs ⊆ names₁) (State.Binds env scope names) (loop scope kind body step condition)
      fun _ => State.Binds env₁ scope names₁ := by
  refine Triple.loop (J := fun s => ok ∧ s.Binds env₁ scope names₁)
    (K := fun s => ok ∧ s.Binds env₁ scope names₁)
    (fun s hs => hs.entered) (hbody.widen And.left) ?_ (hcondition.carry And.right)
  exact (hstep.carry fun _ => trivial).mono (fun _ hs => hs) (fun _ _ hs => ⟨hs.1.1, hs.2⟩)
    fun _ he => he

theorem counterTest {P : State → Prop} (init : Assignment) (limit : Expr) :
    Judges True P (counterTest init limit) fun test s =>
      (∃ ty, test = .binary .le (.var init.target.name ⟨init.ty, 0⟩) limit ⟨ty, 0⟩) ∧ P s := by
  unfold Lower.counterTest
  cases Ty.promote? init.ty limit.ty with
  | none => exact invalid
  | some ty => exact Triple.pure fun _ hs => ⟨trivial, ⟨ty, rfl⟩, hs⟩

end Judges

/-! ### Subroutines -/

/-- Where the body of a new subroutine begins, its scope has no variables. -/
theorem State.Binds.within {s : State} (h : s.Binds env .top names) (hnew : name ∉ s.subroutines)
    (params : List Param) (ty : Ty) (irParams : List Ir.Param) (ret : Ir.Ty) (sub : Subroutine) :
    (s.within name irParams ret sub).Binds (env.enter name params ty) (.subroutine name) [] := by
  have hmem : ∀ f, f ∈ (s.within name irParams ret sub).subroutines ↔ name = f ∨
    f ∈ s.subroutines := by
    intro f
    rw [← Std.LawfulEqOrd.compare_eq_iff_eq]
    exact Std.TreeMap.mem_insert
  refine ⟨fun x => iff_of_false ?_ List.not_mem_nil, fun f => ?_, fun symbol hsymbol => ?_,
    (hmem name).mpr (.inl rfl)⟩
  · exact fun hslot => hnew (h.scopes _ hslot)
  · rw [hmem, h.subroutines, Environment.returnTy?_enter]
    split
    · next heq => exact iff_of_true (.inl heq) rfl
    · next hne => exact or_iff_right hne
  · exact (h.scopes symbol hsymbol).mono fun f hf => (hmem f).mpr (.inr hf)

namespace Judges

theorem storeParams {irParams : List Ir.Param} (h : ParamsFit params irParams)
    (names : List String) :
    Judges True (State.Binds env scope names) (storeParams scope (params.zip irParams))
      fun _ => State.Binds env scope (params.map Param.name ++ names) := by
  induction h generalizing names with
  | nil => exact (Needs.pure _).to_true
  | @cons p q params irParams _ _ ih =>
    rw [Lower.storeParams, List.zip_cons_cons, List.forM_cons]
    refine before ((scalarSlot p.name p.ty).followed fun address => tryInstr _) fun _ => ?_
    refine (ih (p.name :: names)).weaken (fun _ hs => hs) fun _ s hs => hs.congr (fun _ => rfl)
      fun x => ?_
    simp only [List.map_cons, List.cons_append, List.mem_cons, List.mem_append]
    tauto

/-- A subroutine is judged by its body, which begins with its parameters. -/
theorem subroutine {ty : Ty} {body : List Stmt} {ok : Prop} {names₁ : List String}
    (hbody : Judges ok
      (State.Binds (env.enter name params ty) (.subroutine name) (params.map Param.name))
      (block (.subroutine name) body) fun _ => State.Binds env₁ (.subroutine name) names₁) :
    Judges ok (State.Binds env .top names)
    (subroutine name params ty (block (.subroutine name) body))
      fun _ => State.Binds env₁ .top names := by
  intro s hs
  constructor
  · intro u s' hrun
    obtain ⟨hkeeps, -⟩ :=
      keeps_subroutine (.subroutine name) (block_keeps (.subroutine name) body) hrun
    obtain ⟨-, hnew, irParams, ret, s₁, s₂, f, hfit, -, hstore, hrunBody, -, rfl⟩ :=
      runs_subroutine hrun
    obtain ⟨-, hs₁⟩ :=
      (storeParams hfit [] _ (hs.within hnew params ty irParams ret _)).1 () s₁ hstore
    rw [List.append_nil] at hs₁
    obtain ⟨hok, hs₂⟩ := (hbody s₁ hs₁).1 () s₂ hrunBody
    refine ⟨hok, fun x => ?_, hs₂.subroutines, hs₂.scopes, trivial⟩
    rw [← hs.slots, Std.TreeMap.mem_iff_isSome_getElem?, Std.TreeMap.mem_iff_isSome_getElem?,
      hkeeps.others ⟨x, .top⟩ (by simp) trivial]
  · intro e he hname hok
    rcases fails_subroutine he with
      rfl | rfl | ⟨-, rfl⟩ | ⟨hnew, irParams, ret, t, hfit, -, ht, hfails⟩
    · contradiction
    · contradiction
    · contradiction
    have hparams := storeParams hfit [] t (ht ▸ hs.within hnew params ty irParams ret _)
    rcases hfails with hfails | ⟨s₁, hstore, hfails⟩
    · exact hparams.2 e hfails hname trivial
    obtain ⟨-, hs₁⟩ := hparams.1 () s₁ hstore
    rw [List.append_nil] at hs₁
    rcases hfails with hfails | ⟨s₂, -, hfails⟩
    · exact (hbody s₁ hs₁).2 e hfails hname hok
    · rw [(fails_defaultValue hfails).2] at hname
      contradiction

theorem leaveWith {e : Expr} (h : env.Declares e.calls) :
    Judges (e.reads ⊆ names) (State.Binds env scope names)
    (leaveWith scope e) fun _ => State.Binds env scope names := by
  refine get.before fun t => Judges.weaken ?_ (fun _ hs => hs.2) fun _ _ hs => hs
  cases t.subroutines[t.function.name]? with
  | none => exact invalid
  | some sub =>
    exact Judges.followed (Needs.valueOf h sub.ty) fun value => (onFunction _).followed fun _ =>
      (onFunction _).followed fun block => onFunction _

/-! ### Statements -/

theorem tell (event : Event) :
    Judges True (State.Binds env scope names) (tell event) fun _ => State.Binds env scope names :=
  modify fun _ hs => hs.of_eq rfl rfl

/-- The step of a counting loop needs no more than the variable that is counted. -/
theorem counterStep {init : Assignment} (h : init.target.name ∈ names) :
    Judges True (State.Binds env scope names) (Lower.assign scope (counterStep init))
      fun _ => State.Binds env scope names := by
  have hcalls : env.Declares [] := fun _ hname => absurd hname List.not_mem_nil
  refine ((assign hcalls hcalls).congr (iff_of_true ?_ trivial)).weaken (fun _ hs => hs)
    fun _ _ hs => ?_
  · exact List.cons_subset.mpr ⟨h, List.nil_subset _⟩
  · refine hs.congr (fun _ => rfl) fun x => (or_iff_right_of_imp ?_).symm.trans List.mem_cons.symm
    rintro rfl
    exact h

/-- If nothing follows an arm of a conditional, there is nothing to judge. -/
theorem elsePart_none {part : ElsePart} (h : elsePart? scope part = none) :
    part.scoped names ∧ part.after env scope = env ∧ part.binds = [] := by
  cases part with
  | none => exact ⟨rfl, rfl, rfl⟩
  | body body => simp [elsePart?] at h
  | elseIf condition body rest => simp [elsePart?] at h

mutual

/-- **The code for a statement needs the statement to be scoped**, and gives slots to the variables
that it binds. -/
theorem statement (env : Environment) (scope : Scope) (names : List String) (st : Stmt)
    (h : st.Agrees env scope) :
    Judges (st.scoped names) (State.Binds env scope names) (statement scope st)
      fun _ => State.Binds (st.after env scope) scope (st.binds ++ names) := by
  rw [statement.eq_def]
  refine (tell _).before fun _ => ?_
  cases st with
  | expr e =>
    exact (Judges.followed (Needs.operand e (e.declares_calls h.1))
      fun _ => (Needs.pure _).to_true).congr (by simp [Stmt.scoped])
  | assign a =>
    obtain ⟨hvalue, htarget⟩ := a.declares_calls h
    refine ((assign hvalue htarget).congr (by simp [Stmt.scoped])).weaken (fun _ hs => hs)
      fun _ _ hs => ?_
    exact hs.congr (a.returnTy?_after env scope) fun _ => Iff.rfl
  | array ty name size =>
    refine ((declareArray (size.declares_calls h.1) name).congr (by simp [Stmt.scoped])).weaken
      (fun _ hs => hs) ?_
    exact fun _ _ hs => hs.congr (fun _ => rfl) fun _ => Iff.rfl
  | output e => exact (Needs.reads.output (e.declares_calls h.1)
    fun text _ => .internText text).congr (by simp [Stmt.scoped])
  | input target ty => exact (Needs.input (target.declares_calls h.1)).congr (by simp [Stmt.scoped])
  | ifThen condition body rest =>
    obtain ⟨hcondition, -, hbody, hrest⟩ := h
    refine (arm (condition.declares_calls hcondition) (extends_afterAll env scope body)
      (rest.extends_after _ scope) (block env scope names body hbody)
      (elsePart _ scope names rest hrest) ?_).congr ?_
    · exact elsePart_none
    · simp [Stmt.scoped]
  | whileLoop condition body =>
    obtain ⟨hcondition, -, hbody⟩ := h
    have hcalls := (condition.declares_calls hcondition).mono (extends_afterAll env scope body)
    refine (loop (block env scope names body hbody) ((Needs.pure _).to_true)
      (Needs.truthOf hcalls)).congr ?_
    simp [Stmt.scoped]
  | forLoop init limit body =>
    obtain ⟨hinit, ⟨name, shape, htarget⟩, -, hlimit, -, hbody⟩ := h
    obtain ⟨hvalue, hplace⟩ := init.declares_calls hinit
    have hstart :
      Judges (init.needs ⊆ names) (State.Binds env scope names) (Lower.assign scope init)
        fun _ => State.Binds (init.after env scope) scope (init.target.name :: names) := by
      refine (assign hvalue hplace).weaken (fun _ hs => hs) fun _ _ hs => ?_
      rw [Assignment.binds_of_var htarget] at hs
      exact hs.congr (init.returnTy?_after env scope) fun _ => Iff.rfl
    have hcalls :=
      (limit.declares_calls hlimit).mono (extends_afterAll (init.after env scope) scope body)
    have hcounted : init.target.name ∈ bindsAll body ++ init.target.name :: names := by simp
    have hloop : ∀ test :
      Expr, (∃ ty, test = .binary .le (.var init.target.name ⟨init.ty, 0⟩) limit ⟨ty, 0⟩) →
        Judges (scopedAll (init.target.name :: names) body ∧
            init.target.name :: limit.reads ⊆ bindsAll body ++ init.target.name :: names)
          (State.Binds (init.after env scope) scope (init.target.name :: names))
          (Lower.loop scope "for" (Lower.block scope body)
            (Lower.assign scope (Lower.counterStep init)) test)
          fun _ => State.Binds (afterAll (init.after env scope) scope body) scope
            (bindsAll body ++ init.target.name :: names) := by
      rintro test ⟨ty, rfl⟩
      exact loop (block _ scope _ body hbody) (counterStep hcounted) (Needs.truthOf hcalls)
    refine ((hstart.bind fun _ => (counterTest init limit).before
      fun test => .of_known (hloop test)).congr ?_).weaken (fun _ hs => hs) fun _ _ hs => ?_
    · simp [Stmt.scoped, and_assoc]
    · refine hs.congr (fun _ => rfl) fun x => ?_
      simp only [Stmt.binds, List.mem_append, List.mem_cons]
      tauto
  | subroutine name params body ty =>
    obtain ⟨rfl, -, -, hbody⟩ := h
    exact subroutine (block _ _ _ body hbody)
  | ret e => exact (leaveWith (e.declares_calls h.2.1)).congr (by simp [Stmt.scoped])

theorem block (env : Environment) (scope : Scope) (names : List String) (body : List Stmt)
    (h : allAgree env scope body) :
    Judges (scopedAll names body) (State.Binds env scope names) (block scope body)
      fun _ => State.Binds (afterAll env scope body) scope (bindsAll body ++ names) := by
  cases body with
  | nil =>
    rw [Lower.block]
    exact ((Needs.pure _).to_true).congr (by simp [scopedAll])
  | cons st rest =>
    rw [Lower.block]
    refine (((statement env scope names st h.1).bind fun _ =>
      block _ scope _ rest h.2).congr (by simp [scopedAll])).weaken (fun _ hs => hs)
        fun _ _ hs => ?_
    refine hs.congr (fun _ => rfl) fun x => ?_
    simp only [bindsAll, List.mem_append]
    tauto

theorem elsePart (env : Environment) (scope : Scope) (names : List String) (part : ElsePart)
    (h : part.Agrees env scope) (rest : Nat → Lowering Unit)
    (hrest : elsePart? scope part = some rest) (join : Nat) :
    Judges (part.scoped names) (State.Binds env scope names) (rest join)
      fun _ => State.Binds (part.after env scope) scope (part.binds ++ names) := by
  cases part with
  | none => simp [elsePart?] at hrest
  | body body =>
    rw [elsePart?, Option.some.injEq] at hrest
    subst hrest
    refine (block env scope names body h).followed fun _ => ?_
    exact Triple.mono (Triple.fallThrough join) (fun _ hs => hs) (fun _ _ hs => ⟨trivial, hs⟩)
      fun _ he => he
  | elseIf condition body rest' =>
    rw [elsePart?, Option.some.injEq] at hrest
    subst hrest
    obtain ⟨hcondition, -, hbody, hnext⟩ := h
    refine (arm (condition.declares_calls hcondition) (extends_afterAll env scope body)
      (rest'.extends_after _ scope) (block env scope names body hbody)
      (elsePart _ scope names rest' hnext) elsePart_none).congr ?_
    simp [ElsePart.scoped]

end

end Judges

end Lower

/-! ### Programs -/

theorem fails_program {p : Program} {s : State} {e : LowerError} (h : Fails (program p) s e) :
    Fails (block .top p) s e := by
  rcases fails_bind.1 h with hblock | ⟨_, s₁, _, hrest⟩
  · exact hblock
  rcases fails_bind.1 hrest with hleave | ⟨_, s₂, _, hrest⟩
  · exact absurd hleave not_fails_onFunction
  rcases fails_bind.1 hrest with hget | ⟨_, s₃, _, hpure⟩
  · exact absurd hget not_fails_get
  · exact absurd hpure not_fails_pure

theorem State.binds_start (name sourceName target : String) :
    (State.start name sourceName target).Binds {} .top [] := by
  refine ⟨fun x => iff_of_false Std.TreeMap.not_mem_emptyc List.not_mem_nil, fun f => ?_,
    fun symbol h => absurd h Std.TreeMap.not_mem_emptyc, trivial⟩
  exact iff_of_false Std.TreeMap.not_mem_emptyc (by simp [Environment.returnTy?])

/-- Code generation and `scoped` have the same opinion of a program that has been read. -/
theorem judges_of_parse {tokens : List Token} {p : Program} (hparse : parse tokens = .ok p)
    (name sourceName target : String) :
    (∀ e, (generate name sourceName target p).1 = .error e → e.isUnresolved → p.scoped = false) ∧
      ∀ m, (generate name sourceName target p).1 = .ok m → p.scoped = true := by
  have hjudge := Judges.block {} .top [] p (allAgree_of_parse hparse) _
    (State.binds_start name sourceName target)
  constructor
  · intro e he hname
    exact Bool.eq_false_iff.mpr (hjudge.2 e (fails_program he) hname)
  · intro m hm
    obtain ⟨s', hrun⟩ := runs_of_generate hm
    obtain ⟨_, s, hblock, -⟩ := runs_bind.1 hrun
    exact (hjudge.1 () s hblock).1

/-- **Every name of a scoped program stands for something**, be it a variable, an array or a
subroutine; and no code is generated for a program that is not scoped. -/
theorem resolves_iff_scoped {source : String} {p : Program}
    (hparse : parse (scan source).tokens = .ok p) (name sourceName target : String) :
    (p.scoped = true →
      ∀ x scope, (generate name sourceName target p).1 ≠ .error (.unresolvedName x scope)) ∧
      (p.scoped = false → ∀ m, (generate name sourceName target p).1 ≠ .ok m) := by
  obtain ⟨hfails, hruns⟩ := judges_of_parse hparse name sourceName target
  refine ⟨fun hscoped x scope he => ?_, fun hscoped m hm => ?_⟩
  · have hnot := hfails _ he rfl
    rw [hscoped] at hnot
    contradiction
  · have hyes := hruns m hm
    rw [hscoped] at hyes
    contradiction

/-- Variables that are bound in an arm and in a loop, and used behind them; an array and a
subroutine that calls itself. -/
def boundOnTheWay : String :=
  "INT SUBROUTINE down(INT n)\nIF n > 0 THEN\nk = n - 1\nRETURN down(k)\nENDIF\nk = 0\n" ++
    "RETURN k\nENDSUBROUTINE\nINT a[3]\ni = 0\nWHILE i < 3 DO\na[i] = down(i)\ni = i + 1\n" ++
    "ENDWHILE\nIF i == 3 THEN\ns = \"three\"\nENDIF\nOUTPUT s\n"

theorem boundOnTheWay_resolves : ∃ p, parse (scan boundOnTheWay).tokens = .ok p ∧ p.scoped = true ∧
    ∀ x scope, (generate "way" "way.pc" "none" p).1 ≠ .error (.unresolvedName x scope) := by
  have hok : (parse (scan boundOnTheWay).tokens).toOption.map Program.scoped = some true := by
    decide +kernel
  obtain ⟨p, hp, hscoped⟩ := Option.map_eq_some_iff.mp hok
  have hparse := eq_ok_of_toOption hp
  exact ⟨p, hparse, hscoped, (resolves_iff_scoped hparse "way" "way.pc" "none").1 hscoped⟩

/-- A variable that is bound in one arm of a conditional and used in the other. -/
def usedInTheOtherArm : String :=
  "c = 1\nIF c == 1 THEN\nx = 1\nELSE\nOUTPUT x\nENDIF\n"

/-- **A program may be read whose names do not all stand for something.** -/
theorem unresolved_usedInTheOtherArm : ∃ p, parse (scan usedInTheOtherArm).tokens = .ok p ∧
    (generate "arms" "arms.pc" "none" p).1 = .error (.unresolvedName "x" .top) := by
  have hok : ((parse (scan usedInTheOtherArm).tokens).toOption.bind fun p =>
      match (generate "arms" "arms.pc" "none" p).1 with
      | .error e => some e
      | .ok _ => none) = some (.unresolvedName "x" .top) := by
    decide +kernel
  obtain ⟨p, hp, hfails⟩ := Option.bind_eq_some_iff.mp hok
  refine ⟨p, eq_ok_of_toOption hp, ?_⟩
  split at hfails
  · next e he => rw [he, Option.some.inj hfails]
  · contradiction

end Pseudocode
