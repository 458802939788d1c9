import Pseudocode.Proofs.Ir.Linking
import Pseudocode.Proofs.Ir.Naming
import Pseudocode.Proofs.Lower.Frame
import Pseudocode.Proofs.Lower.Start

/-!
The invariant of code generation.

`State.Sound scope s` is what holds between any two steps while code for a scope is generated.  The
function in the making is sound, a slot of the scope has been reserved in it at the type that its
kind asks for, and the subroutines are declared with the types of their parameters.  Slots of other
scopes belong to other functions.  They are kept in the same storage, and nothing is said about them
but that their scope has been declared.  That is enough: a new subroutine has a new name, so there
are no slots of its scope yet.

Each step keeps the invariant if what it is given is visible in the current block, and what it gives
is then visible too.

Instructions refer to the module in two ways: they call functions by their names, and they are given
addresses of constant strings.  What is called is a routine, or a subroutine that has been declared,
and it is called by the signature that it is declared with.  An address of a string is handed to the
one instruction that finds its first byte, right after the string has been interned or among the
formats.  Strings and subroutines are only added, so what is allowed once (`State.Allows`) is
allowed ever after.
-/

namespace Pseudocode.Lower

open Ir

variable {f : FunctionDraft} {name : String} {r : Value} {signature : Signature}

/-! ### What is stored, declared and finished -/

/-- The type of what a slot of a kind holds. -/
def kindTy? : SlotKind → Option Ir.Ty
  | .scalar ty => irTy? ty
  | .array ty => (irTy? ty).map .ptr

/-- Has the slot been reserved in the function, at the type of its kind? -/
def SlotFits (f : FunctionDraft) (slot : Slot) : Prop :=
  ∃ name ty, slot.address = .register name (.ptr ty) ∧ .alloca name ty ∈ f.prologue.toList ∧
    kindTy? slot.kind = some ty

theorem SlotFits.mono {g : FunctionDraft} {slot : Slot} (h : SlotFits f slot)
    (hsub : f.prologue.toList <+: g.prologue.toList) : SlotFits g slot := by
  obtain ⟨name, ty, haddress, hmem, hkind⟩ := h
  exact ⟨name, ty, haddress, hsub.subset hmem, hkind⟩

/-- What is said of a slot does not depend on the size of its buffer. -/
theorem SlotFits.of_eq {slot slot' : Slot} (h : SlotFits f slot)
    (haddress : slot'.address = slot.address)
    (hkind : slot'.kind = slot.kind) : SlotFits f slot' := by
  obtain ⟨name, ty, hname, hmem, hty⟩ := h
  exact ⟨name, ty, haddress.trans hname, hmem, by rw [hkind]; exact hty⟩

/-- Is the subroutine declared with the types of its parameters and of what it returns? -/
structure SubroutineFits (sub : Subroutine) : Prop where
  ret : irTy? sub.ty = some sub.signature.ret
  params : sub.params.map irTy? = sub.signature.params.map some
  variadic : sub.signature.variadic = false

/-- Is there a routine with this name and signature, or a subroutine that has been declared with
it? -/
def State.Callable (s : State) (callee : String) (signature : Signature) : Prop :=
  ⟨callee, signature⟩ ∈ Routines.declarations ∨
    ∃ sub, s.subroutines[callee]? = some sub ∧ sub.signature = signature

/-- Does the instruction refer only to what there is? -/
def State.Allows (s : State) : Instr → Prop :=
  Instr.Linked s.module.globals.toList s.Callable

/-- The name of a string that is interned without one. -/
def stringName (k : Nat) : String :=
  s!".str.{k}"

/-- The module has the routines and the formats, and strings that are numbered from zero. -/
structure Stocked (m : ModuleDraft) : Prop where
  declarations : m.declarations = Routines.declarations
  formats : Routines.formats.toList ⊆ m.globals.toList
  names : m.globals.toList.map Global.name =
    Routines.formats.toList.map Global.name ++ (List.range m.nextString).map stringName

/-- A finished function is well typed, its definitions dominate their uses, and no name is given
twice in it. -/
structure Finished (f : Function) : Prop where
  wellTyped : f.WellTyped
  dominated : ∃ setup, f.Dominated setup
  named : (f.params.map Ir.Param.name).Nodup → f.localNames.Nodup

theorem Finished.of_steps {s : State} {params : List Ir.Param} {ret : Ir.Ty} (hf : f.Sound s.Allows)
    (hsteps : FunctionDraft.Steps (.start name params ret) f) : Finished f.build ∧
    f.build.Only s.Allows :=
  ⟨⟨hf.wellTyped, ⟨_, hf.dominated⟩,
    hf.localNames_nodup ((FunctionDraft.Named.start name params ret).steps hsteps)⟩,
    FunctionDraft.Sound.only hf⟩

/-- What holds while code for a scope is generated. -/
structure State.Sound (scope : Scope) (s : State) : Prop where
  function : s.function.Sound s.Allows
  slots : ∀ (symbol : Symbol) (slot : Slot), s.storage[symbol]? = some slot → symbol.scope = scope →
    SlotFits s.function slot
  scopes : ∀ (symbol : Symbol) (slot : Slot), s.storage[symbol]? = some slot →
    Declared s symbol.scope
  declared : Declared s scope
  subroutines : ∀ (name : String) (sub : Subroutine), s.subroutines[name]? = some sub →
    SubroutineFits sub
  /-- The function returns what its subroutine returns. -/
  returns : ∀ sub, s.subroutines[s.function.name]? = some sub → irTy? sub.ty = some s.function.ret
  /-- It is the one that the program starts with, or belongs to a subroutine. -/
  named : s.function.name = "main" ∨ s.function.name ∈ s.subroutines
  main : "main" ∉ s.subroutines
  routines : s.routines = .standard
  stocked : Stocked s.module
  functions : ∀ f ∈ s.module.functions, Finished f ∧ f.Only s.Allows

/-- What is allowed is allowed later, when there are more strings and subroutines. -/
theorem State.Allows.later {s s' : State}
    (hglobals : s.module.globals.toList <+: s'.module.globals.toList)
    (hsubs : ∀ (name : String) (sub : Subroutine), s.subroutines[name]? = some sub →
      s'.subroutines[name]? = some sub)
    (i : Instr) (h : s.Allows i) : s'.Allows i := by
  refine h.mono hglobals.subset fun callee signature hcallable => hcallable.imp_right ?_
  rintro ⟨sub, hsub, hsignature⟩
  exact ⟨sub, hsubs callee sub hsub, hsignature⟩

/-! ### Steps that only append -/

namespace State.Sound

variable {scope : Scope} {s s' : State}

/-- Where nothing but the function and the strings has changed, only the function is to be looked
at. -/
theorem of_appends (hs : s.Sound scope) (h : Appends s s') (hf : s'.function.Sound s'.Allows)
    (hstocked : Stocked s'.module) : s'.Sound scope := by
  obtain ⟨is, his⟩ := h.function
  have hsub : ∀ name ∈ s.subroutines, name ∈ s'.subroutines := by
    rw [h.subroutines]
    exact fun _ hname => hname
  refine ⟨hf, ?_, ?_, hs.declared.mono hsub, ?_, ?_, ?_, ?_, ?_, hstocked, ?_⟩
  · intro symbol slot hslot hscope
    rw [h.storage] at hslot
    refine (hs.slots symbol slot hslot hscope).mono ?_
    rw [his]
    exact List.prefix_refl _
  · intro symbol slot hslot
    rw [h.storage] at hslot
    exact (hs.scopes symbol slot hslot).mono hsub
  · rw [h.subroutines]
    exact hs.subroutines
  · rw [h.subroutines, his]
    exact hs.returns
  · rw [h.subroutines, his]
    exact hs.named
  · rw [h.subroutines]
    exact hs.main
  · exact h.routines.trans hs.routines
  · rw [h.functions]
    refine fun f hf => (hs.functions f hf).imp_right fun honly => honly.mono
      (State.Allows.later h.globals ?_)
    rw [h.subroutines]
    exact fun _ _ hsub => hsub

theorem known_mono (hs : s.Sound scope) (h : Appends s s') {v : Value}
    (hv : v.Known s.function.visible) : v.Known s'.function.visible := by
  obtain ⟨is, his⟩ := h.function
  refine hv.mono fun d hd => ?_
  rw [his, hs.function.visible_extend]
  exact List.mem_append_left _ hd

theorem emit (hs : s.Sound scope) {i : Instr} (hi : i.Fits s.Allows s.function.visible)
    (hres : ∀ d, i.result? = some d → d.1 = s.next) : (s.emit [i]).Sound scope :=
  hs.of_appends (Appends.emit s [i]) (hs.function.extend hi hres) hs.stocked

/-- An instruction that calls nothing and is given no address of a string. -/
theorem fits (s : State) {i : Instr} (htyped : i.WellTyped)
    (hknown : ∀ v ∈ i.operands, v.Known s.function.visible) (hslot : ∀ dest ty, i ≠ .alloca dest ty)
    (hcall : ∀ dest callee signature args, i ≠ .call dest callee signature args) :
    i.Fits s.Allows s.function.visible :=
  ⟨htyped, fun v hv _ => hknown v hv, hslot, .of_local (fun v hv => (hknown v hv).local) hcall⟩

/-- Adding an instruction that fits and defines a register, which is then visible. -/
theorem compute (hs : s.Sound scope) {i : Instr} {ty : Ir.Ty}
    (hi : i.Fits s.Allows s.function.visible) (hres : i.result? = some (s.next, ty)) :
    (s.emit [i]).Sound scope ∧ (Value.register s.next ty).Known (s.emit [i]).function.visible := by
  refine ⟨hs.emit hi fun d hd => ?_, ?_⟩
  · rw [hres, Option.some.injEq] at hd
    rw [← hd]
  · show (s.next, ty) ∈ (s.function.extend [i]).visible
    rw [hs.function.visible_extend]
    refine List.mem_append_right _ (List.mem_filterMap.mpr ⟨i, List.mem_singleton_self i, hres⟩)

theorem slot (hs : s.Sound scope) {slot : Slot}
    (hslot : s.storage[(⟨name, scope⟩ : Symbol)]? = some slot) :
    ∃ ty, kindTy? slot.kind = some ty ∧ slot.address.ty = .ptr ty ∧
    slot.address.Known s.function.visible := by
  obtain ⟨register, ty, haddress, hmem, hkind⟩ := hs.slots _ _ hslot rfl
  refine ⟨ty, hkind, by rw [haddress]; rfl, ?_⟩
  rw [haddress]
  refine List.mem_append_left _ (List.mem_append_right _ (List.mem_filterMap.mpr ⟨_, hmem, rfl⟩))

variable {v w ptr : Value}

theorem load (hs : s.Sound scope) (hptr : ptr.Known s.function.visible)
    (h : Runs (load ptr) s v s') :
    s'.Sound scope ∧ v.Known s'.function.visible ∧ ptr.ty = .ptr v.ty := by
  obtain ⟨ty, hty, rfl, rfl⟩ := runs_load.1 h
  have hfits : (Instr.load s.next ty ptr).Fits s.Allows s.function.visible :=
    fits s hty (by simpa [Instr.operands] using hptr) (by simp) (by simp)
  obtain ⟨hs', hknown⟩ := hs.compute hfits rfl
  exact ⟨hs', hknown, hty⟩

theorem store (hs : s.Sound scope) (hv : v.Known s.function.visible)
    (hptr : ptr.Known s.function.visible)
    {u : Unit} (h : Runs (store v ptr) s u s') : s'.Sound scope := by
  obtain ⟨hty, rfl⟩ := runs_store.1 h
  have hfits : (Instr.store v ptr).Fits s.Allows s.function.visible :=
    fits s hty (by simpa [Instr.operands] using ⟨hv, hptr⟩) (by simp) (by simp)
  exact hs.emit hfits (by simp [Instr.result?])

theorem arith (hs : s.Sound scope) {op : ArithOp} (hv : v.Known s.function.visible)
    (hw : w.Known s.function.visible) (hvty : v.ty = op.ty) (hwty : w.ty = op.ty)
    (h : Runs (arith op v w) s r s') : s'.Sound scope ∧ r.Known s'.function.visible := by
  obtain ⟨rfl, rfl⟩ := runs_arith.1 h
  have hfits : (Instr.arith s.next op v w).Fits s.Allows s.function.visible :=
    fits s ⟨hvty, hwty⟩ (by simpa [Instr.operands] using ⟨hv, hw⟩) (by simp) (by simp)
  exact hs.compute hfits rfl

theorem icmp (hs : s.Sound scope) {pred : IntPred} (hv : v.Known s.function.visible)
    (hw : w.Known s.function.visible) (hvty : v.ty = .i32) (hwty : w.ty = .i32)
    (h : Runs (icmp pred v w) s r s') : s'.Sound scope ∧ r.Known s'.function.visible ∧
    r.ty = .i1 := by
  obtain ⟨rfl, rfl⟩ := runs_icmp.1 h
  have hfits : (Instr.icmp s.next pred v w).Fits s.Allows s.function.visible :=
    fits s ⟨hvty, hwty⟩ (by simpa [Instr.operands] using ⟨hv, hw⟩) (by simp) (by simp)
  obtain ⟨hs', hknown⟩ := hs.compute hfits rfl
  exact ⟨hs', hknown, rfl⟩

theorem fcmp (hs : s.Sound scope) {pred : FloatPred} (hv : v.Known s.function.visible)
    (hw : w.Known s.function.visible) (hvty : v.ty = .double) (hwty : w.ty = .double)
    (h : Runs (fcmp pred v w) s r s') : s'.Sound scope ∧ r.Known s'.function.visible ∧
    r.ty = .i1 := by
  obtain ⟨rfl, rfl⟩ := runs_fcmp.1 h
  have hfits : (Instr.fcmp s.next pred v w).Fits s.Allows s.function.visible :=
    fits s ⟨hvty, hwty⟩ (by simpa [Instr.operands] using ⟨hv, hw⟩) (by simp) (by simp)
  obtain ⟨hs', hknown⟩ := hs.compute hfits rfl
  exact ⟨hs', hknown, rfl⟩

theorem cast (hs : s.Sound scope) {op : CastOp} {target : Ir.Ty} (hv : v.Known s.function.visible)
    (hop : op.Converts v.ty target) (h : Runs (cast op v target) s r s') :
    s'.Sound scope ∧ r.Known s'.function.visible ∧ r.ty = target := by
  obtain ⟨rfl, rfl⟩ := runs_cast.1 h
  have hfits : (Instr.cast s.next op v target).Fits s.Allows s.function.visible :=
    fits s hop (by simpa [Instr.operands] using hv) (by simp) (by simp)
  obtain ⟨hs', hknown⟩ := hs.compute hfits rfl
  exact ⟨hs', hknown, rfl⟩

theorem offset (hs : s.Sound scope) (hv : v.Known s.function.visible)
    (hw : w.Known s.function.visible)
    (h : Runs (offset v w) s r s') : s'.Sound scope ∧ r.Known s'.function.visible ∧
    r.ty = v.ty := by
  obtain ⟨ty, hty, rfl, rfl⟩ := runs_offset.1 h
  have hfits : (Instr.gep s.next (.ptr ty) v [w] false).Fits s.Allows s.function.visible := by
    refine fits s ?_ (by simpa [Instr.operands] using ⟨hv, hw⟩) (by simp) (by simp)
    show (v.ty.pointee?.bind fun ty => ty.step? []).map Ir.Ty.ptr = some (.ptr ty)
    rw [hty]
    rfl
  obtain ⟨hs', hknown⟩ := hs.compute hfits rfl
  exact ⟨hs', hknown, hty.symm⟩

theorem firstByte (hs : s.Sound scope) {g : Global} (hg : g ∈ s.module.globals.toList)
    (h : Runs (firstByte g.address) s r s') : s'.Sound scope ∧ r.Known s'.function.visible ∧
    r.ty = .bytes := by
  obtain ⟨rfl, rfl⟩ := (runs_firstByte rfl).1 h
  have hoperands : ∀ v ∈ (firstByteInstr s.next g.address).operands, v = g.address ∨
    v.Known s.function.visible := by
    intro v hv
    simp only [firstByteInstr, Instr.operands, List.mem_cons, List.not_mem_nil, or_false] at hv
    rcases hv with rfl | rfl | rfl
    · exact Or.inl rfl
    · exact Or.inr trivial
    · exact Or.inr trivial
  have hfits : (firstByteInstr s.next g.address).Fits s.Allows s.function.visible := by
    refine ⟨rfl, fun v hv hlocal => (hoperands v hv).resolve_left
      ?_, by simp [firstByteInstr], fun v hv => ?_, by simp [firstByteInstr]⟩
    · rintro rfl
      exact hlocal
    · exact (hoperands v hv).symm.imp Value.Known.local fun heq => ⟨g, hg, heq⟩
  obtain ⟨hs', hknown⟩ := hs.compute hfits rfl
  exact ⟨hs', hknown, rfl⟩

theorem format (hs : s.Sound scope) {ty : Ty} (h : Runs (format ty) s r s') :
    s'.Sound scope ∧ r.Known s'.function.visible ∧ r.ty = .bytes := by
  obtain ⟨global, hglobal, hbyte⟩ := runs_format.1 h
  have hformat : ∃ g ∈ Routines.formats.toList, global = g.address := by
    rw [hs.routines] at hglobal
    cases ty with
    | undetermined => simp [Routines.format?] at hglobal
    | _ =>
      rw [Routines.format?, Option.some.injEq] at hglobal
      refine ⟨_, ?_, hglobal.symm⟩
      simp [Routines.formats]
  obtain ⟨g, hg, rfl⟩ := hformat
  exact hs.firstByte (hs.stocked.formats hg) hbyte

theorem emit_call (hs : s.Sound scope) {callee : String} {args : List Value}
    (hcallee : s.Callable callee signature)
    (hargs : ∀ v ∈ args, v.Known s.function.visible) (htakes : signature.Takes args) :
    (s.emit [.call (some s.next) callee signature args]).Sound scope ∧
      (Value.register s.next signature.ret).Known
        (s.emit [.call (some s.next) callee signature args]).function.visible := by
  refine hs.compute
    ⟨htakes, fun v hv _ => hargs v hv, by simp, fun v hv => .inl (hargs v hv).local, ?_⟩ rfl
  rintro _ _ _ _ hcall
  obtain ⟨-, rfl, rfl, -⟩ := Instr.call.inj hcall
  exact hcallee

theorem call (hs : s.Sound scope) {callee : String} {args : List Value}
    (hcallee : s.Callable callee signature)
    (hargs : ∀ v ∈ args, v.Known s.function.visible) (htakes : signature.Takes args)
    (h : Runs (call callee signature args) s r s') :
    s'.Sound scope ∧ r.Known s'.function.visible ∧ r.ty = signature.ret := by
  obtain ⟨-, rfl, rfl⟩ := runs_call.1 h
  obtain ⟨hs', hknown⟩ := hs.emit_call hcallee hargs htakes
  exact ⟨hs', hknown, rfl⟩

theorem byteCount (hs : s.Sound scope) {size : Nat} (h : Runs (byteCount size) s r s') :
    s'.Sound scope ∧ r.Known s'.function.visible ∧ r.ty = .i64 := by
  obtain ⟨-, hcast⟩ := runs_byteCount.1 h
  have hconverts : CastOp.sext.Converts (Value.i32 size).ty .i64 := ⟨rfl, rfl⟩
  exact hs.cast (v := .i32 size) trivial hconverts (runs_cast.2 hcast)

theorem malloc (hs : s.Sound scope) (hv : v.Known s.function.visible) (hty : v.ty = .i64)
    (h : Runs (malloc v) s r s') : s'.Sound scope ∧ r.Known s'.function.visible ∧
    r.ty = .bytes := by
  have hcall := runs_get_bind.1 h
  rw [hs.routines] at hcall
  exact hs.call (.inl (by simp [Routines.declarations])) (by simpa using hv)
    ⟨by simp [Routines.standard, hty], by simp [Routines.standard]⟩ hcall

theorem realloc (hs : s.Sound scope) (hv : v.Known s.function.visible) (hvty : v.ty = .bytes)
    (hw : w.Known s.function.visible) (hwty : w.ty = .i64) (h : Runs (realloc v w) s r s') :
    s'.Sound scope ∧ r.Known s'.function.visible ∧ r.ty = .bytes := by
  have hcall := runs_get_bind.1 h
  rw [hs.routines] at hcall
  exact hs.call (.inl (by simp [Routines.declarations])) (by simpa using ⟨hv, hw⟩)
    ⟨by simp [Routines.standard, hvty, hwty], by simp [Routines.standard]⟩ hcall

theorem memcpy (hs : s.Sound scope) {dest source size : Value}
    (hdest : dest.Known s.function.visible)
    (hsource : source.Known s.function.visible) (hsize : size.Known s.function.visible)
    (hdestty : dest.ty = .bytes) (hsourcety : source.ty = .bytes) (hsizety : size.ty = .i64)
    {u : Unit} (h : Runs (memcpy dest source size) s u s') : s'.Sound scope := by
  obtain ⟨r, hcall, -⟩ := runs_bind_pure.1 (runs_get_bind.1 h)
  rw [hs.routines] at hcall
  have htakes : Routines.standard.memcpy.Takes [dest, source, size] :=
    ⟨by simp [Routines.standard, hdestty, hsourcety, hsizety], by simp [Routines.standard]⟩
  exact (hs.call (.inl (by simp [Routines.declarations])) (by simpa using ⟨hdest, hsource, hsize⟩)
    htakes hcall).1

end State.Sound

end Pseudocode.Lower
