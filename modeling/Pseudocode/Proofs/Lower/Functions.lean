import Pseudocode.Proofs.Ir.Places
import Pseudocode.Proofs.Lower.WellFormed
import Pseudocode.Proofs.Typing.Agreement

/-!
Where the functions of a module come from.

A function is finished where the declaration of its subroutine ends, in the middle of the code for
other statements, and `main` is finished last.  What is to be shown of all functions is shown here
for a program as a whole, from what is shown of the body of one function: it begins in a state in
which no slot of its scope is known, its parameters are stored, its statements are lowered, and it
returns (`GoodRoutine`).

What carries this is `State.Tidy`, which holds while code is generated for a program that has been
read.  Besides the invariant of code generation it says that slots have the names of their
variables, that arrays and subroutines are of numbers, and that all functions that have been
finished are good.
-/

namespace Pseudocode

variable {name x : String} {ty : Ty} {params : List Param} {F : FunctionDraft}

/-! ### Subroutines of a program -/

mutual

/-- The subroutines that are declared in a statement: their parameters and bodies, in the order in
which they end. -/
def Stmt.routines : Stmt → List (List Param × List Stmt)
  | .ifThen _ body rest => routinesAll body ++ rest.routines
  | .whileLoop _ body => routinesAll body
  | .forLoop _ _ body => routinesAll body
  | .subroutine _ params body _ => routinesAll body ++ [(params, body)]
  | _ => []

def routinesAll : List Stmt → List (List Param × List Stmt)
  | [] => []
  | s :: rest => s.routines ++ routinesAll rest

def ElsePart.routines : ElsePart → List (List Param × List Stmt)
  | .none => []
  | .body body => routinesAll body
  | .elseIf _ body rest => routinesAll body ++ rest.routines

end

namespace Lower

open Ir

/-! ### Tidy states -/

/-- The slot has a name of its variable, and if it is one for an array then for an array of
numbers. -/
structure SlotNamed (symbol : Symbol) (slot : Slot) : Prop where
  address : ∃ name ty, slot.address = .register name ty ∧ Draft.SlotOf symbol.name name
  array : ∀ ty, slot.kind = .array ty → ty.isNumeric

theorem SlotNamed.of_eq {symbol : Symbol} {slot slot' : Slot} (h : SlotNamed symbol slot)
    (haddress : slot'.address = slot.address) (hkind : slot'.kind = slot.kind) :
    SlotNamed symbol slot' :=
  ⟨by rw [haddress]; exact h.address, by rw [hkind]; exact h.array⟩

/-- Are all slots of the scope in the storage named like that? -/
def SlotsNamed (scope : Scope) (storage : Storage) : Prop :=
  ∀ (symbol : Symbol) (slot : Slot), storage[symbol]? = some slot → symbol.scope = scope →
    SlotNamed symbol slot

namespace SlotsNamed

variable {scope : Scope} {storage theirs : Storage}

theorem forgetLengths (h : SlotsNamed scope storage) :
    SlotsNamed scope (storage.forgetLengths scope) := by
  intro symbol slot hslot hscope
  rw [Storage.getElem?_forgetLengths] at hslot
  obtain ⟨found, hfound, rfl⟩ := Option.map_eq_some_iff.mp hslot
  rw [if_pos hscope]
  exact (h symbol found hfound hscope).of_eq rfl rfl

theorem join (h : SlotsNamed scope storage) (h' : SlotsNamed scope theirs) :
    SlotsNamed scope (storage.join theirs) := by
  intro symbol slot hslot hscope
  obtain ⟨found, hours | htheirs, haddress, hkind⟩ := State.Sound.join_cases hslot
  · exact (h symbol found hours hscope).of_eq haddress hkind
  · exact (h' symbol found htheirs hscope).of_eq haddress hkind

theorem insert (h : SlotsNamed scope storage) {slot : Slot} (hslot : SlotNamed ⟨name, scope⟩ slot) :
    SlotsNamed scope (storage.insert ⟨name, scope⟩ slot) := by
  intro symbol found hfound hscope
  rcases insert_cases hfound with ⟨rfl, rfl⟩ | hold
  · exact hslot
  · exact h symbol found hold hscope

end SlotsNamed

/-- What is known of a subroutine that is declared in a program that has been read. -/
structure SubroutineNumeric (name : String) (sub : Subroutine) : Prop where
  free : name ∉ Routines.reserved
  ty : sub.ty.isNumeric
  params : ∀ ty ∈ sub.params, ty.isNumeric

/-- What is to be shown of functions.  It may speak of the constant strings of their module, and
stays true where there are more of them. -/
structure Property where
  Holds : List Global → Function → Prop
  mono : ∀ {globals globals' : List Global} {f : Function}, globals ⊆ globals' → Holds globals f →
    Holds globals' f

/-- No function has been finished, and no constant string has been lost. -/
structure Unfinished (m m' : ModuleDraft) : Prop where
  functions : m'.functions = m.functions
  globals : m.globals.toList ⊆ m'.globals.toList

namespace Unfinished

theorem refl (m : ModuleDraft) : Unfinished m m :=
  ⟨rfl, List.Subset.refl _⟩

theorem trans {m₁ m₂ m₃ : ModuleDraft} (h : Unfinished m₁ m₂) (h' : Unfinished m₂ m₃) :
    Unfinished m₁ m₃ :=
  ⟨h'.functions.trans h.functions, List.Subset.trans h.globals h'.globals⟩

theorem of_appends {s s' : State} (h : Appends s s') : Unfinished s.module s'.module :=
  ⟨h.functions, h.globals.subset⟩

end Unfinished

/-- What holds while code is generated for a scope of a program that has been read. -/
structure State.Tidy (Good : Property) (scope : Scope) (s : State) : Prop where
  sound : s.Sound scope
  slots : SlotsNamed scope s.storage
  subroutines : ∀ (name : String) (sub : Subroutine), s.subroutines[name]? = some sub →
    SubroutineNumeric name sub
  functions : ∀ f ∈ s.module.functions, Good.Holds s.module.globals.toList f

/-- Is the function good that is made of these parameters and statements?  It begins with a state in
which no slot of its scope is known, and ends by returning something. -/
def GoodRoutine (Good : Property) (params : List Param) (body : List Stmt) : Prop :=
  ∀ (scope : Scope) (env : Environment) (name : String) (irParams : List Ir.Param) (ret : Ir.Ty)
    (s₀ s₁ s₂ : State)
    (value : Value), ParamsFit params irParams → (∀ p ∈ params, p.ty.isNumeric) →
    allAgree env scope body → s₀.Tidy Good scope → s₀.function = .start name irParams ret →
    (∀ symbol : Symbol, symbol.scope = scope → s₀.storage[symbol]? = none) →
    Runs (storeParams scope (params.zip irParams)) s₀ () s₁ → Runs (block scope body) s₁ () s₂ →
    Good.Holds s₂.module.globals.toList (s₂.function.leave (some value)).build

namespace State.Tidy

variable {Good : Property} {scope : Scope} {s s₁ s₂ s₃ s' : State} {v : Value} {u : Unit}

theorem of_appends (hs : s.Tidy Good scope) (h : Appends s s') (hsound : s'.Sound scope) :
    s'.Tidy Good scope := by
  refine ⟨hsound, ?_, ?_, ?_⟩
  · rw [h.storage]
    exact hs.slots
  · rw [h.subroutines]
    exact hs.subroutines
  · rw [h.functions]
    exact fun f hf => Good.mono h.globals.subset (hs.functions f hf)

/-- Where only the function and the slots have changed, only the slots are to be looked at. -/
theorem of_same (hs : s.Tidy Good scope) (hsound : s'.Sound scope)
    (hslots : SlotsNamed scope s'.storage)
    (hsubroutines : s'.subroutines = s.subroutines) (hmodule : Unfinished s.module s'.module) :
    s'.Tidy Good scope := by
  refine ⟨hsound, hslots, by rw [hsubroutines]; exact hs.subroutines, ?_⟩
  rw [hmodule.functions]
  exact fun f hf => Good.mono hmodule.globals (hs.functions f hf)

/-! ### Statements without bodies -/

theorem slots_straight {kinds : SlotKind → Prop} (hkinds : ∀ ty, kinds (.array ty) → ty.isNumeric)
    (h : Straight kinds scope s s') (hs : SlotsNamed scope s.storage) :
    SlotsNamed scope s'.storage ∧ Unfinished s.module s'.module := by
  induction h with
  | appends h => exact ⟨by rw [h.storage]; exact hs, .of_appends h⟩
  | reserved => exact ⟨hs, .refl _⟩
  | first h =>
    obtain ⟨-, rfl⟩ := runs_storeFirst.1 h
    exact ⟨hs, .refl _⟩
  | made haddress hname hkind =>
    exact ⟨hs.insert ⟨⟨_, _, haddress, hname⟩, fun ty heq => hkinds ty (heq ▸ hkind)⟩, .refl _⟩
  | resized hslot length => exact ⟨hs.insert ((hs _ _ hslot rfl).of_eq rfl rfl), .refl _⟩
  | trans _ _ ih₁ ih₂ =>
    obtain ⟨hs₁, hmodule₁⟩ := ih₁ hs
    obtain ⟨hs₂, hmodule₂⟩ := ih₂ hs₁
    exact ⟨hs₂, hmodule₁.trans hmodule₂⟩

theorem straight {kinds : SlotKind → Prop} (hs : s.Tidy Good scope)
    (hkinds : ∀ ty, kinds (.array ty) → ty.isNumeric)
    (h : Straight kinds scope s s') (hsound : s'.Sound scope) : s'.Tidy Good scope := by
  obtain ⟨hslots, hmodule⟩ := slots_straight hkinds h hs.slots
  exact hs.of_same hsound hslots h.same.2.1 hmodule

theorem isScalar_array (ty : Ty) (h : IsScalar (.array ty)) : ty.isNumeric := by
  obtain ⟨_, heq⟩ := h
  simp at heq

theorem assign (hs : s.Tidy Good scope) {a : Assignment} (h : Runs (assign scope a) s u s') :
    s'.Tidy Good scope :=
  hs.straight isScalar_array (straight_assign h) (hs.sound.assign h)

theorem declareArray (hs : s.Tidy Good scope) {size : Expr} (hty : ty.isNumeric)
    (h : Runs (declareArray scope ty name size) s u s') : s'.Tidy Good scope := by
  refine hs.straight (fun ty' heq => ?_) (straight_declareArray h) (hs.sound.declareArray h)
  rw [SlotKind.array.inj heq]
  exact hty

theorem leaveWith (hs : s.Tidy Good scope) {e : Expr} (h : Runs (leaveWith scope e) s u s') :
    s'.Tidy Good scope := by
  have hsound := hs.sound.leaveWith h
  obtain ⟨sub, value, s₁, -, hvalue, rfl⟩ := runs_leaveWith h
  have a₁ := hvalue.appends
  exact hs.of_same hsound (by rw [State.moved_storage, a₁.storage]; exact hs.slots) a₁.subroutines
    ⟨a₁.functions, a₁.globals.subset⟩

theorem storeParams (hs : s.Tidy Good scope) {pairs : List (Param × Ir.Param)}
    (hparams : ∀ pair ∈ pairs, pair.2 ∈ s.function.params)
    (h : Runs (storeParams scope pairs) s u s') : s'.Tidy Good scope :=
  hs.straight isScalar_array (straight_storeParams h) (hs.sound.storeParams hparams h)

/-- A subroutine that is declared leaves the variables of this scope alone. -/
theorem storage_subroutine (hs : s.Tidy Good scope) (x : String) {name : String}
    {params : List Param} {body : List Stmt}
    (h : Runs (subroutine name params ty (block (.subroutine name) body)) s u s') :
    s'.storage[(⟨x, scope⟩ : Symbol)]? = s.storage[(⟨x, scope⟩ : Symbol)]? := by
  obtain ⟨kept, -⟩ := keeps_subroutine (.subroutine name) (block_keeps (.subroutine name) body) h
  obtain ⟨-, hnew, -⟩ := runs_subroutine h
  have hother : scope ≠ .subroutine name := by
    rintro rfl
    exact hnew hs.sound.declared
  exact kept.others ⟨x, scope⟩ hother hs.sound.declared

/-! ### Conditionals and loops -/

section

variable {condition : Expr} {join? : Option Nat} {body : Lowering Unit}
  {rest? : Option (Nat → Lowering Unit)} {truth : Value} {k : FunctionDraft.Fork}

variable (h : ArmRun scope condition join? body rest? s s' truth s₁ s₂ s₃ k)

include h

theorem armCondition (hs : s.Tidy Good scope) : s₁.Tidy Good scope :=
  hs.of_appends h.condition.appends (hs.sound.truthOf h.condition).1

theorem armBody (hs : s.Tidy Good scope) :
    (s₁.moved (k.function.switchTo k.body) s₁.storage).Tidy Good scope :=
  (hs.armCondition h).of_same (hs.sound.armBody h) (hs.armCondition h).slots rfl (.refl _)

theorem armOtherwise (hs : s.Tidy Good scope) (hs₂ : s₂.Tidy Good scope) (hrest : rest?.isSome) :
    (s₁.otherwise s₂ k).Tidy Good scope :=
  hs₂.of_same (hs.sound.armOtherwise hs₂.sound hrest h) (hs.armCondition h).slots rfl (.refl _)

theorem arm (hs : s.Tidy Good scope)
    (hbody : (s₁.moved (k.function.switchTo k.body) s₁.storage).Tidy Good scope →
      s₂.Tidy Good scope)
    (hrest : rest?.isSome → (s₁.otherwise s₂ k).Tidy Good scope → s₃.Tidy Good scope) :
    s'.Tidy Good scope := by
  have hs₂ := hbody (hs.armBody h)
  have hs₃ : SlotsNamed scope s₃.storage ∧
      (∀ (name : String) (sub : Subroutine), s₃.subroutines[name]? = some sub →
        SubroutineNumeric name sub) ∧
      ∀ f ∈ s₃.module.functions, Good.Holds s₃.module.globals.toList f := by
    cases hrest? : rest? with
    | none =>
      rw [h.alone hrest?]
      exact ⟨(hs.armCondition h).slots, hs₂.subroutines, hs₂.functions⟩
    | some rest =>
      have hsome : rest?.isSome := by rw [hrest?]; rfl
      have hs₃ := hrest hsome (hs.armOtherwise h hs₂ hsome)
      exact ⟨hs₃.slots, hs₃.subroutines, hs₃.functions⟩
  obtain ⟨hslots, hsubs, hfunctions⟩ := hs₃
  have hsound := hs.sound.arm (fun _ => hs₂.sound)
    (fun hsome _ => (hrest hsome (hs.armOtherwise h hs₂ hsome)).sound) h
  rw [h.result] at hsound ⊢
  exact ⟨hsound, hslots.join hs₂.slots, hsubs, hfunctions⟩

end

theorem loopBody (hs : s.Tidy Good scope) (kind : String) :
    (s.moved (s.function.enter kind) (s.storage.forgetLengths scope)).Tidy Good scope :=
  hs.of_same (hs.sound.loopBody kind) hs.slots.forgetLengths rfl (.refl _)

theorem loop (hs : s.Tidy Good scope) {kind : String} {body step : Lowering Unit} {condition : Expr}
    {truth : Value} (h : LoopRun scope kind body step condition s s' truth s₁ s₂ s₃)
    (hbody : (s.moved (s.function.enter kind) (s.storage.forgetLengths scope)).Tidy Good scope →
      s₁.Tidy Good scope)
    (hstep : s₁.Tidy Good scope → s₂.Tidy Good scope) : s'.Tidy Good scope := by
  have hs₁ := hbody (hs.loopBody kind)
  have hs₂ := hstep hs₁
  have hsound := hs.sound.loop (fun _ => hs₁.sound) (fun _ => hs₂.sound) h
  have hs₃ := hs₂.of_appends h.condition.appends (hs₂.sound.truthOf h.condition).1
  rw [h.result] at hsound ⊢
  exact hs₃.of_same hsound hs₃.slots rfl (.refl _)

/-! ### Subroutines -/

theorem within (hs : s.Tidy Good scope) {irParams : List Ir.Param} {ret : Ir.Ty}
    (hreserved : name ∉ Routines.reserved) (hnew : name ∉ s.subroutines)
    (hfit : ParamsFit params irParams)
    (hret : irTy? ty = some ret) (hty : ty.isNumeric) (hparams : ∀ p ∈ params, p.ty.isNumeric) :
    (s.within name irParams ret ⟨⟨ret, irParams.map Ir.Param.ty, false⟩, params.map Param.ty,
      ty⟩).Tidy Good
        (.subroutine name) ∧
      ∀ symbol : Symbol, symbol.scope = .subroutine name → s.storage[symbol]? = none := by
  have hnone : ∀ symbol : Symbol, symbol.scope = .subroutine name → s.storage[symbol]? = none := by
    intro symbol hscope
    cases hslot : s.storage[symbol]? with
    | none => rfl
    | some slot =>
      have hdeclared := hs.sound.scopes symbol slot hslot
      rw [hscope] at hdeclared
      exact absurd hdeclared hnew
  refine ⟨⟨hs.sound.within hreserved hnew hfit hret, ?_, ?_, hs.functions⟩, hnone⟩
  · intro symbol slot hslot hscope
    have hslot' : s.storage[symbol]? = some slot := hslot
    rw [hnone symbol hscope] at hslot'
    simp at hslot'
  · intro other found hfound
    rcases insert_cases hfound with ⟨rfl, rfl⟩ | hold
    · refine ⟨hreserved, hty, ?_⟩
      intro ty' hmem
      obtain ⟨p, hp, rfl⟩ := List.mem_map.mp hmem
      exact hparams p hp
    · exact hs.subroutines other found hold

theorem subroutine (hs : s.Tidy Good scope) {env : Environment} {body : List Stmt}
    (hty : ty.isNumeric)
    (hparams : ∀ p ∈ params, p.ty.isNumeric) (hagree : allAgree env (.subroutine name) body)
    (hgood : GoodRoutine Good params body)
    (hbody : ∀ s s', s.function.Open → Runs (block (.subroutine name) body) s () s' →
      s.Tidy Good (.subroutine name) → s'.Tidy Good (.subroutine name))
    (h : Runs (subroutine name params ty (block (.subroutine name) body)) s u s') :
    s'.Tidy Good scope := by
  have hsound := hs.sound.subroutine (fun s s' ho h hs => block_sound _ _ s s' hs ho h) h
  obtain ⟨kept, -⟩ := keeps_subroutine (.subroutine name) (block_keeps (.subroutine name) body) h
  obtain ⟨hreserved, hnew, irParams, ret, s₁, s₂, f, hfit, hret, hstore, hrun, hfinish, rfl⟩ :=
    runs_subroutine h
  obtain ⟨hs₀, hnone⟩ := hs.within hreserved hnew hfit hret hty hparams
  obtain ⟨-, o₁⟩ := keeps_storeParams _ _ (open_start name irParams ret) hstore
  obtain ⟨-, o₂⟩ := block_keeps (.subroutine name) body _ _ o₁ hrun
  have hs₁ := hs₀.storeParams (fun pair hpair => (List.of_mem_zip hpair).2) hstore
  have hs₂ := hbody _ _ o₁ hrun hs₁
  have hf : Good.Holds s₂.module.globals.toList f.build := by
    rcases hfinish with ⟨hterminated, -⟩ | ⟨-, value, -, -, rfl⟩
    · rw [o₂.isTerminated] at hterminated
      exact absurd hterminated Bool.false_ne_true
    · exact hgood _ env name irParams ret _ s₁ s₂ value hfit hparams hagree hs₀ rfl hnone
        hstore hrun
  refine ⟨hsound, ?_, hs₂.subroutines, ?_⟩
  · intro symbol slot hslot hscope
    have hother : symbol.scope ≠ .subroutine name := by
      intro heq
      have hdeclared := hs.sound.declared
      rw [← hscope, heq] at hdeclared
      exact hnew hdeclared
    have hsame := kept.others symbol hother (by rw [hscope]; exact hs.sound.declared)
    exact hs.slots symbol slot (hsame.symm.trans hslot) hscope
  · intro g hg
    rcases Array.mem_push.mp hg with hold | rfl
    · exact hs₂.functions g hold
    · exact hf

end State.Tidy

/-- What holds of every function. -/
def Property.any : Property :=
  ⟨fun _ _ => True, fun _ _ => trivial⟩

theorem State.Tidy.any {Good : Property} {scope : Scope} {s : State} (hs : s.Tidy Good scope) :
    s.Tidy .any scope :=
  ⟨hs.sound, hs.slots, hs.subroutines, fun _ _ => trivial⟩

theorem goodRoutine_any (params : List Param) (body : List Stmt) : GoodRoutine .any params body :=
  fun _ _ _ _ _ _ _ _ _ _ _ _ _ _ _ _ _ => trivial

/-! ### States inside of a function -/

/-- The slot is one of `F` and has a name of its variable, and if it is one for an array then for an
array of numbers. -/
structure SlotPlaced (F : FunctionDraft) (x : String) (slot : Slot) (name : String) (ty : Ir.Ty) :
    Prop where
  address : slot.address = .register name (.ptr ty)
  reserved : .alloca name ty ∈ F.prologue.toList
  kind : kindTy? slot.kind = some ty
  slotOf : Draft.SlotOf x name
  array : ∀ ty, slot.kind = .array ty → ty.isNumeric

/-- What code for expressions is generated from, on the way to the function `F`. -/
structure State.Placed (F : FunctionDraft) (scope : Scope) (s : State) : Prop where
  whole : F.Whole
  sound : s.Sound scope
  opened : s.function.Open
  slots : ∀ (x : String) (slot : Slot), s.storage[(⟨x, scope⟩ : Symbol)]? = some slot →
    ∃ name ty, SlotPlaced F x slot name ty
  subroutines : ∀ (name : String) (sub : Subroutine), s.subroutines[name]? = some sub →
    SubroutineNumeric name sub

theorem State.Sound.placed {scope : Scope} {s : State} (hs : s.Sound scope)
    (hslots : SlotsNamed scope s.storage)
    (hsubs : ∀ (name : String) (sub : Subroutine), s.subroutines[name]? = some sub →
      SubroutineNumeric name sub)
    (hopen : s.function.Open) (hwhole : F.Whole) (hF : s.function.Extends F) :
    s.Placed F scope := by
  refine ⟨hwhole, hs, hopen, ?_, hsubs⟩
  intro x slot hslot
  obtain ⟨name, ty, haddress, hmem, hkind⟩ := hs.slots _ slot hslot rfl
  obtain ⟨⟨name', ty', haddress', hslotOf⟩, harray⟩ := hslots _ slot hslot rfl
  rw [haddress, Value.register.injEq] at haddress'
  rw [← haddress'.1] at hslotOf
  exact ⟨name, ty, haddress, hF.prologue.subset hmem, hkind, hslotOf, harray⟩

theorem State.Tidy.placed {Good : Property} {scope : Scope} {s : State} (hs : s.Tidy Good scope)
    (hopen : s.function.Open) (hwhole : F.Whole) (hF : s.function.Extends F) : s.Placed F scope :=
  hs.sound.placed hs.slots hs.subroutines hopen hwhole hF

theorem State.Placed.stringSlot {scope : Scope} {s : State} {slot : Slot} (hs : s.Placed F scope)
    (hslot : s.storage[(⟨x, scope⟩ : Symbol)]? = some slot) (hkind : slot.kind = .scalar .string) :
    ∃ name, SlotPlaced F x slot name .bytes := by
  obtain ⟨name, ty, hplaced⟩ := hs.slots x slot hslot
  have hty := hplaced.kind
  rw [hkind] at hty
  rw [← Option.some.inj hty] at hplaced
  exact ⟨name, hplaced⟩

theorem State.Placed.of_appends {scope : Scope} {s s' : State} (hs : s.Placed F scope)
    (h : Appends s s') (hsound : s'.Sound scope) : s'.Placed F scope := by
  obtain ⟨is, his⟩ := h.function
  refine ⟨hs.whole, hsound, by rw [his]; exact hs.opened.extend is, ?_, ?_⟩
  · rw [h.storage]
    exact hs.slots
  · rw [h.subroutines]
    exact hs.subroutines

theorem getElem?_insert_other {scope : Scope} (storage : Storage) {y : String} (h : y ≠ x)
    (slot : Slot) :
    (storage.insert (⟨x, scope⟩ : Symbol) slot)[(⟨y, scope⟩ : Symbol)]? =
    storage[(⟨y, scope⟩ : Symbol)]? := by
  rw [Std.TreeMap.getElem?_insert, if_neg]
  rw [Std.LawfulEqOrd.compare_eq_iff_eq]
  intro heq
  exact h (congrArg Symbol.name heq).symm

theorem getElem?_insert_this {scope : Scope} (storage : Storage) (x : String) (slot found : Slot)
    (h : (storage.insert (⟨x, scope⟩ : Symbol) slot)[(⟨x, scope⟩ : Symbol)]? = some found) :
    found = slot := by
  rw [Std.TreeMap.getElem?_insert_self, Option.some.injEq] at h
  exact h.symm

/-- The slot of a variable for values of a kind is there, or is made. -/
def SlotRun (scope : Scope) (x : String) (kind : SlotKind) (t : Ir.Ty) (s s₁ : State)
    (address : Value) : Prop :=
  (∃ slot, s.storage[(⟨x, scope⟩ : Symbol)]? = some slot ∧ slot.kind = kind ∧
    address = slot.address ∧ s₁ = s) ∨
    s.Lacks ⟨x, scope⟩ kind ∧ address = .register (s.slotName ⟨x, scope⟩) (.ptr t) ∧
      s₁ = (s.reserved ⟨x, scope⟩ t).withSlot ⟨x, scope⟩ { address, kind }

theorem slotRun_scalar {scope : Scope} {t : Ir.Ty} {s s' : State} {v : Value}
    (ht : irTy? ty = some t)
    (h : Runs (scalarSlot ⟨x, scope⟩ ty) s v s') : SlotRun scope x (.scalar ty) t s s' v := by
  rcases runs_scalarSlot h with hfound | ⟨hlacks, t', ht', hv, hs'⟩
  · exact Or.inl hfound
  · rw [ht, Option.some.injEq] at ht'
    rw [← ht'] at hv hs'
    exact Or.inr ⟨hlacks, hv, hs'⟩

theorem SlotRun.straight {scope : Scope} {kind : SlotKind} {t : Ir.Ty} {s s₁ : State}
    {address : Value}
    (h : SlotRun scope x kind t s s₁ address) : Straight (· = kind) scope s s₁ := by
  rcases h with ⟨slot, -, -, -, rfl⟩ | ⟨-, rfl, rfl⟩
  · exact .refl _
  · refine (Straight.reserved s x t).trans ?_
    exact .made rfl (Draft.slotOf_freshName _ _) rfl

/-- One parameter is stored, and then the others. -/
structure ParamRun (Good : Property) (scope : Scope) (pair : Param × Ir.Param)
    (pairs : List (Param × Ir.Param))
    (s s₁ s₂ s' : State) (t : Ir.Ty) (address : Value) : Prop where
  ty : irTy? pair.1.ty = some t
  known : pair.2.value.Known s.function.visible
  slot : SlotRun scope pair.1.name (.scalar pair.1.ty) t s s₁ address
  store : Runs (store pair.2.value address) s₁ () s₂
  keeps : Keeps scope s s₂
  opened : s₂.function.Open
  tidy : s₂.Tidy Good scope
  passed : ∀ other ∈ pairs, other.2 ∈ s₂.function.params
  rest : Runs (storeParams scope pairs) s₂ () s'
  restKeeps : Keeps scope s₂ s'

theorem State.Tidy.storeParam {Good : Property} {scope : Scope} {pair : Param × Ir.Param}
    {pairs : List (Param × Ir.Param)} {s s' : State} {u : Unit} (hs : s.Tidy Good scope)
    (hopen : s.function.Open)
    (hnumeric : pair.1.ty.isNumeric)
    (hparams : ∀ other ∈ pair :: pairs, other.2 ∈ s.function.params)
    (h : Runs (Lower.storeParams scope (pair :: pairs)) s u s') :
    ∃ s₁ s₂ t address, ParamRun Good scope pair pairs s s₁ s₂ s' t address := by
  obtain ⟨s₂, hone, hrest⟩ := runs_forM_cons.1 h
  have hs₂ : s₂.Tidy Good scope :=
    hs.storeParams
      (fun other hother => hparams other
        (List.mem_cons.mpr (Or.inl (List.mem_singleton.mp hother))))
      (runs_forM_cons.2 ⟨s₂, hone, runs_forM_nil.2 rfl⟩)
  obtain ⟨address, s₁, hslot, hstore⟩ := runs_bind.1 hone
  obtain ⟨k₂, o₂⟩ := ((straight_scalarSlot hslot).trans (hstore.appends.straight scope)).keeps hopen
  obtain ⟨t, ht⟩ : ∃ t, irTy? pair.1.ty = some t := by
    cases hcase : pair.1.ty <;> simp [hcase, Ty.isNumeric] at hnumeric <;> exact ⟨_, rfl⟩
  refine ⟨s₁, s₂, t, address, ht, ?_, slotRun_scalar ht hslot, hstore, k₂, o₂, hs₂,
    fun other hother => ?_, hrest, (keeps_storeParams s₂ s' o₂ hrest).1⟩
  · exact List.mem_append_left _ (List.mem_append_left _
      (List.mem_map.mpr ⟨pair.2, hparams pair List.mem_cons_self, rfl⟩))
  · rw [k₂.steps.signature_eq.2.1]
    exact hparams other (List.mem_cons_of_mem _ hother)

/-- What is known of a slot that has been found or made. -/
structure SlotReady (F : FunctionDraft) (scope : Scope) (x : String) (t : Ir.Ty) (s s₁ : State)
    (ptr : Value) (name : String) : Prop where
  address : ptr = .register name (.ptr t)
  reserved : .alloca name t ∈ F.prologue.toList
  slotOf : Draft.SlotOf x name
  opened : s₁.function.Open
  current : s₁.function.current = s.function.current
  blocks : s₁.function.blocks = s.function.blocks
  others : ∀ y, y ≠ x → s₁.storage[(⟨y, scope⟩ : Symbol)]? = s.storage[(⟨y, scope⟩ : Symbol)]?
  this : ∀ slot, s₁.storage[(⟨x, scope⟩ : Symbol)]? = some slot → slot.address = ptr

theorem SlotRun.ready {scope : Scope} {s s₁ : State} {kind : SlotKind} {t : Ir.Ty} {address : Value}
    (h : SlotRun scope x kind t s s₁ address) (hs : s.Placed F scope)
    (hkind : kindTy? kind = some t)
    (hF : s₁.function.Extends F) : ∃ name, SlotReady F scope x t s s₁ address name := by
  rcases h with ⟨slot, hslot, rfl, rfl, rfl⟩ | ⟨-, rfl, rfl⟩
  · obtain ⟨name, ty, hplaced⟩ := hs.slots x slot hslot
    have hty := hplaced.kind
    rw [hkind, Option.some.injEq] at hty
    rw [← hty] at hplaced
    refine ⟨name, hplaced.address, hplaced.reserved, hplaced.slotOf, hs.opened, rfl, rfl,
      fun _ _ => rfl, ?_⟩
    intro slot' hslot'
    rw [hslot, Option.some.injEq] at hslot'
    rw [hslot']
  · obtain ⟨-, -, hmem⟩ := hs.sound.reserved ⟨x, scope⟩ t
    refine ⟨s.slotName ⟨x, scope⟩, rfl, hF.prologue.subset hmem, Draft.slotOf_freshName _ _,
      hs.opened, rfl, rfl,
      fun y hy => getElem?_insert_other s.storage hy _, ?_⟩
    intro slot' hslot'
    rw [getElem?_insert_this s.storage x _ slot' hslot']

/-! ### Statements -/

section

variable {Good : Property}

theorem tidy_walk (Good : Property) : Walk
    (fun scope st s s' => ∀ env, st.Agrees env scope →
      (∀ r ∈ st.routines, GoodRoutine Good r.1 r.2) → s.Tidy Good scope → s'.Tidy Good scope)
    (fun scope body s s' => ∀ env, allAgree env scope body →
      (∀ r ∈ routinesAll body, GoodRoutine Good r.1 r.2) → s.Tidy Good scope → s'.Tidy Good scope)
    fun scope part _ s s' => ∀ env, part.Agrees env scope →
    (∀ r ∈ part.routines, GoodRoutine Good r.1 r.2) →
      s.Tidy Good scope → s'.Tidy Good scope where
  logged _ h env hagrees hgood hs :=
    h env hagrees hgood (hs.of_same (hs.sound.logged _) hs.slots rfl (.refl _))
  expr _ h _ _ _ hs :=
    hs.of_appends h.appends ((operand_sound _ _).sound _ _ _ hs.sound h).1
  assign _ h _ _ _ hs := hs.assign h
  array _ h _ hagrees _ hs := hs.declareArray hagrees.2.2 h
  output _ h _ _ _ hs := hs.of_appends h.appends (hs.sound.output h)
  input _ h _ _ _ hs := hs.of_appends h.appends (hs.sound.input h)
  ifThen _ harm hbody hrest env hagrees hgood hs :=
    hs.arm harm (hbody env hagrees.2.2.1 fun r hr => hgood r (List.mem_append_left _ hr))
      fun hsome => hrest hsome _ hagrees.2.2.2 fun r hr => hgood r (List.mem_append_right _ hr)
  whileLoop hloop hbody env hagrees hgood hs := hs.loop hloop (hbody env hagrees.2.2 hgood) id
  forLoop _ hinit _ hloop hbody _ hagrees hgood hs :=
    (hs.assign hinit).loop hloop (hbody _ hagrees.2.2.2.2.2 hgood) fun hs => hs.assign hloop.step
  subroutine _ h hbody _ hagrees hgood hs :=
    hs.subroutine hagrees.2.1 hagrees.2.2.1 hagrees.2.2.2
      (hgood _ (List.mem_append_right _ List.mem_cons_self))
      (fun s s' ho h => hbody s s' ho h _ hagrees.2.2.2
        fun r hr => hgood r (List.mem_append_left _ hr)) h
  ret _ h _ _ _ hs := hs.leaveWith h
  nil _ _ _ hs := hs
  cons _ _ _ _ _ _ h₁ h₂ env hagree hgood hs :=
    h₂ _ hagree.2 (fun r hr => hgood r (List.mem_append_right _ hr))
      (h₁ env hagree.1 (fun r hr => hgood r (List.mem_append_left _ hr)) hs)
  body _ _ _ _ hbody env hagrees hgood hs := by
    have hs₁ := hbody env hagrees hgood hs
    exact hs₁.of_same (hs₁.sound.movedBack hs₁.sound (Keeps.refl _) (hs₁.sound.function.fallTo _)
      (FunctionDraft.steps_fallTo _ _)) hs₁.slots rfl (.refl _)
  elseIf _ _ harm hbody hrest env hagrees hgood hs :=
    hs.arm harm (hbody env hagrees.2.2.1 fun r hr => hgood r (List.mem_append_left _ hr))
      fun hsome => hrest hsome _ hagrees.2.2.2 fun r hr => hgood r (List.mem_append_right _ hr)

/-- **Statements are lowered tidily**, if the subroutines that are declared in them are good. -/
theorem statement_tidy (env : Environment) (scope : Scope) (st : Stmt)
    (hagrees : st.Agrees env scope)
    (hgood : ∀ r ∈ st.routines, GoodRoutine Good r.1 r.2) {s s' : State} (hs : s.Tidy Good scope)
    (hopen : s.function.Open) (h : Runs (statement scope st) s () s') : s'.Tidy Good scope :=
  ((tidy_walk Good).statement scope st s s' hopen h).2 env hagrees hgood hs

theorem block_tidy (env : Environment) (scope : Scope) (body : List Stmt)
    (hagree : allAgree env scope body)
    (hgood : ∀ r ∈ routinesAll body, GoodRoutine Good r.1 r.2) {s s' : State}
    (hs : s.Tidy Good scope)
    (hopen : s.function.Open) (h : Runs (block scope body) s () s') : s'.Tidy Good scope :=
  ((tidy_walk Good).block scope body s s' hopen h).2 env hagree hgood hs

theorem block_tidy_any {env : Environment} {scope : Scope} {body : List Stmt}
    (hagree : allAgree env scope body)
    {s s' : State} (hs : s.Tidy .any scope) (hopen : s.function.Open)
    (h : Runs (block scope body) s () s') : s'.Tidy .any scope :=
  block_tidy env scope body hagree (fun r _ => goodRoutine_any r.1 r.2) hs hopen h

/-- The code of a function: its parameters are stored, then its body is lowered. -/
structure RoutineRun (params : List Param) (body : List Stmt) (scope : Scope) (env : Environment)
    (irParams : List Ir.Param) (s₀ s₁ s₂ : State) : Prop where
  fit : ParamsFit params irParams
  numeric : ∀ p ∈ params, p.ty.isNumeric
  agree : allAgree env scope body
  start : ∃ name ret, s₀.function = .start name irParams ret
  /-- No slot of the scope is known at first. -/
  nothing : ∀ symbol : Symbol, symbol.scope = scope → s₀.storage[symbol]? = none
  begun : s₀.Tidy .any scope
  store : Runs (storeParams scope (params.zip irParams)) s₀ () s₁
  stored : s₁.Tidy .any scope
  storedOpen : s₁.function.Open
  block : Runs (block scope body) s₁ () s₂
  blockKeeps : Keeps scope s₁ s₂
  ended : s₂.Tidy .any scope
  endedOpen : s₂.function.Open
  whole : ∀ value, (s₂.function.leave (some value)).Whole

namespace RoutineRun

variable {body : List Stmt} {scope : Scope} {env : Environment} {irParams : List Ir.Param}
  {s₀ s₁ s₂ : State} (h : RoutineRun params body scope env irParams s₀ s₁ s₂)

include h

theorem begunOpen : s₀.function.Open := by
  obtain ⟨name, ret, hstart⟩ := h.start
  rw [hstart]
  exact open_start name irParams ret

theorem passed : ∀ pair ∈ params.zip irParams, pair.2 ∈ s₀.function.params := by
  obtain ⟨name, ret, hstart⟩ := h.start
  rw [hstart]
  exact fun pair hpair => (List.of_mem_zip hpair).2

theorem passedNumeric : ∀ pair ∈ params.zip irParams, pair.1.ty.isNumeric :=
  fun pair hpair => h.numeric pair.1 (List.of_mem_zip hpair).1

end RoutineRun

theorem GoodRoutine.of_run {body : List Stmt}
    (h : ∀ scope env irParams s₀ s₁ s₂ value, RoutineRun params body scope env irParams s₀ s₁ s₂ →
      Good.Holds s₂.module.globals.toList (s₂.function.leave (some value)).build) :
      GoodRoutine Good params body := by
  intro scope env name irParams ret s₀ s₁ s₂ value hfit hnumeric hagree hs₀ hstart hnothing
    hstore hblock
  have hopen₀ : s₀.function.Open := by
    rw [hstart]
    exact open_start name irParams ret
  have hpassed : ∀ pair ∈ params.zip irParams, pair.2 ∈ s₀.function.params := by
    rw [hstart]
    exact fun pair hpair => (List.of_mem_zip hpair).2
  obtain ⟨k₁, o₁⟩ := keeps_storeParams _ _ hopen₀ hstore
  obtain ⟨k₂, o₂⟩ := block_keeps scope body _ _ o₁ hblock
  have hs₁ := hs₀.any.storeParams hpassed hstore
  have hs₂ := block_tidy_any hagree hs₁ o₁ hblock
  refine h scope env irParams s₀ s₁ s₂ value ⟨hfit, hnumeric, hagree, ⟨name, ret, hstart⟩, hnothing,
    hs₀.any, hstore, hs₁, o₁, hblock, k₂, hs₂, o₂, fun value => ?_⟩
  have hsteps := (k₁.trans k₂).steps.terminate (.ret (some value))
  rw [hstart] at hsteps
  exact hs₂.sound.function.whole ((FunctionDraft.Named.start name irParams ret).steps hsteps) rfl

end

/-! ### Programs -/

theorem tidy_start (Good : Property) (name sourceName target : String) :
    (State.start name sourceName target).Tidy Good .top := by
  have hsubroutines : (State.start name sourceName target).subroutines = ∅ := rfl
  refine ⟨sound_start name sourceName target, ?_, ?_, ?_⟩
  · intro symbol slot hslot
    have hempty : (∅ : Storage)[symbol]? = some slot := hslot
    simp at hempty
  · rw [hsubroutines]
    simp
  · rw [State.start_functions]
    simp

end Lower

open Lower Ir

/-- **All functions of a module are good if those of its subroutines and that of its statements
are.** -/
theorem good_of_generate {Good : Property} {sourceName target : String} {p : Program} {m : Module}
    (h : (generate name sourceName target p).1 = .ok m) (hagree : allAgree {} .top p)
    (hmain : GoodRoutine Good [] p) (hroutines : ∀ r ∈ routinesAll p, GoodRoutine Good r.1 r.2) :
    ∀ f ∈ m.functions, Good.Holds m.globals f := by
  obtain ⟨s, hrun⟩ := runs_of_generate h
  obtain ⟨s₁, hblock, rfl⟩ := runs_program hrun
  have hstart := tidy_start Good name sourceName target
  have hs₁ := block_tidy {} .top p hagree hroutines hstart
    (opened_start name sourceName target) hblock
  intro f hf
  have hpush : f ∈ (s₁.module.functions.push (s₁.function.leave (some (.i32 0))).build).toList := hf
  rw [Array.mem_toList_iff, Array.mem_push] at hpush
  rcases hpush with hold | rfl
  · exact hs₁.functions f hold
  · refine hmain .top {} "main" [] .i32 _ _ s₁ (.i32 0) List.Forall₂.nil
      (by simp) hagree hstart rfl ?_ (runs_forM_nil.2 rfl) hblock
    intro symbol _
    show (∅ : Storage)[symbol]? = none
    simp

end Pseudocode
