import Pseudocode.Proofs.Lower.Expressions

/-!
Statements keep the invariant.

A statement takes a sound state with an open block to a sound state.  Where it reserves a slot, the
slot is added to the prologue and to the storage at once; where it moves to another block, only what
is visible in every block is still there, and no value is carried from one block to another.  A
subroutine begins with a function of its own, in which no slot has been reserved, and its scope is a
new one, in which no slot is known.
-/

namespace Pseudocode.Lower

open Ir

variable {g : FunctionDraft} {name : String} {ty : Ty} {args : List Value} {params : List Param}

/-- Is everything that is visible in the first state visible in the second? -/
def Sees (s s' : State) : Prop :=
  ∀ d ∈ s.function.visible, d ∈ s'.function.visible

theorem Sees.trans {s s₁ s' : State} (h₁ : Sees s s₁) (h₂ : Sees s₁ s') : Sees s s' :=
  fun d hd => h₂ d (h₁ d hd)

namespace State.Sound

variable {scope : Scope} {s s' : State} {v : Value} {u : Unit}

theorem sees (hs : s.Sound scope) (h : Appends s s') : Sees s s' := by
  obtain ⟨is, his⟩ := h.function
  intro d hd
  rw [his, hs.function.visible_extend]
  exact List.mem_append_left _ hd

/-! ### Slots -/

theorem withFunction (hs : s.Sound scope) (hg : g.Sound s.Allows)
    (hprologue : s.function.prologue.toList <+: g.prologue.toList)
    (hname : g.name = s.function.name)
    (hret : g.ret = s.function.ret) : State.Sound scope { s with function := g } := by
  refine ⟨hg, ?_, hs.scopes, hs.declared, hs.subroutines, ?_, ?_, hs.main, hs.routines, hs.stocked,
    hs.functions⟩
  · intro symbol slot hslot hscope
    exact (hs.slots symbol slot hslot hscope).mono hprologue
  · intro sub hsub
    rw [hret]
    exact hs.returns sub (by rw [← hname]; exact hsub)
  · rw [hname]
    exact hs.named

theorem reserved (hs : s.Sound scope) (symbol : Symbol) (ty : Ir.Ty) :
    (s.reserved symbol ty).Sound scope ∧ Sees s (s.reserved symbol ty) ∧
      .alloca (s.slotName symbol) ty ∈ (s.reserved symbol ty).function.prologue.toList := by
  refine ⟨?_, FunctionDraft.visible_setup _ _ _, ?_⟩
  · refine hs.withFunction (hs.function.push_setup _ (Or.inl ⟨_, _, rfl⟩) ?_)
      (FunctionDraft.extends_setup _ _ _).prologue rfl rfl
    intro d hd
    simp only [Instr.result?, Option.some.injEq] at hd
    rw [← hd]
    exact Draft.dot_mem_freshName (by simp)
  · show _ ∈ (s.function.prologue.push _).toList
    rw [Array.toList_push]
    exact List.mem_append_right _ (List.mem_singleton_self _)

theorem storeFirst (hs : s.Sound scope) {ty : Ir.Ty}
    (hslot : .alloca name ty ∈ s.function.prologue.toList)
    (h : Runs (storeFirst (.null ty) (.register name (.ptr ty))) s u s') : s'.Sound scope ∧
    Sees s s' := by
  obtain ⟨-, rfl⟩ := runs_storeFirst.1 h
  refine ⟨hs.withFunction (hs.function.push_setup _ (Or.inr ⟨name, ty, rfl, hslot⟩) ?_)
    (FunctionDraft.extends_setup _ _ s.function.taken).prologue rfl rfl,
    FunctionDraft.visible_setup _ _ _⟩
  intro d hd
  simp [Instr.result?] at hd

theorem withSlot (hs : s.Sound scope) (name : String) {slot : Slot}
    (hslot : SlotFits s.function slot) : (s.withSlot ⟨name, scope⟩ slot).Sound scope := by
  refine ⟨hs.function, ?_, ?_, hs.declared, hs.subroutines, hs.returns, hs.named, hs.main,
    hs.routines, hs.stocked, hs.functions⟩
  · intro symbol found hfound hscope
    rcases insert_cases hfound with ⟨-, rfl⟩ | hold
    · exact hslot
    · exact hs.slots symbol found hold hscope
  · intro symbol found hfound
    rcases insert_cases hfound with ⟨rfl, -⟩ | hold
    · exact hs.declared
    · exact hs.scopes symbol found hold

/-- The slot for values of a type is visible, and holds values of that type. -/
theorem scalarSlot (hs : s.Sound scope) (h : Runs (scalarSlot ⟨name, scope⟩ ty) s v s') :
    s'.Sound scope ∧ Sees s s' ∧ v.Known s'.function.visible := by
  rcases runs_scalarSlot h with ⟨slot, hslot, -, rfl, rfl⟩ | ⟨-, t, ht, rfl, rfl⟩
  · obtain ⟨_, _, _, hknown⟩ := hs.slot hslot
    exact ⟨hs, fun _ hd => hd, hknown⟩
  · obtain ⟨hs₁, hsees, hmem⟩ := hs.reserved ⟨name, scope⟩ t
    refine ⟨hs₁.withSlot name ⟨_, t, rfl, hmem, ht⟩, hsees, ?_⟩
    exact List.mem_append_left _ (List.mem_append_right _ (List.mem_filterMap.mpr ⟨_, hmem, rfl⟩))

theorem stringBuffer (hs : s.Sound scope) {length : Nat}
    (h : Runs (stringBuffer ⟨name, scope⟩ length) s v s') :
    s'.Sound scope ∧ Sees s s' ∧ v.Known s'.function.visible ∧ v.ty = .bytes := by
  have hbytes : kindTy? (.scalar .string) = some .bytes := rfl
  rcases runs_stringBuffer h with ⟨slot, hslot, hkind, -, hload⟩ |
    ⟨slot, old, size, s₁, s₂, s₃, s₄, hslot, hkind, hload, hsize, hrealloc, hstore, rfl⟩ |
    ⟨-, size, s₁, s₂, s₃, s₄, hfirst, hsize, hmalloc, hstore, rfl⟩
  · obtain ⟨ty, hty, haddressTy, haddress⟩ := hs.slot hslot
    obtain ⟨hs', hknown, hvty⟩ := hs.load haddress hload
    rw [hkind, hbytes, Option.some.injEq] at hty
    rw [haddressTy, ← hty, Ir.Ty.ptr.injEq] at hvty
    exact ⟨hs', hs.sees hload.appends, hknown, hvty.symm⟩
  · obtain ⟨ty, hty, haddressTy, haddress⟩ := hs.slot hslot
    rw [hkind, hbytes, Option.some.injEq] at hty
    have a₁ := hload.appends
    have a₂ := hsize.appends
    have a₃ := hrealloc.appends
    have a₄ := hstore.appends
    obtain ⟨hs₁, holdKnown, holdTy⟩ := hs.load haddress hload
    rw [haddressTy, ← hty, Ir.Ty.ptr.injEq] at holdTy
    obtain ⟨hs₂, hsizeKnown, hsizeTy⟩ := hs₁.byteCount hsize
    obtain ⟨hs₃, hknown, hvty⟩ :=
      hs₂.realloc (hs₁.known_mono a₂ holdKnown) holdTy.symm hsizeKnown hsizeTy hrealloc
    have hs₄ := hs₃.store hknown (hs.known_mono (a₁.trans (a₂.trans a₃)) haddress) hstore
    have hall := a₁.trans (a₂.trans (a₃.trans a₄))
    -- The slot is the one that was there, with another size.
    have hfits : SlotFits s₄.function { slot with length := some length } := by
      refine ((hs.slots _ slot hslot rfl).of_eq rfl rfl).mono ?_
      obtain ⟨is, his⟩ := hall.function
      rw [his]
      exact List.prefix_refl _
    exact ⟨hs₄.withSlot name hfits, (hs.sees hall : Sees s s₄), hs₃.known_mono a₄ hknown, hvty⟩
  · obtain ⟨hs₀, hsees₀, hmem⟩ := hs.reserved ⟨name, scope⟩ .bytes
    obtain ⟨hs₁, hsees₁⟩ := hs₀.storeFirst hmem hfirst
    have hprologue : .alloca (s.slotName ⟨name, scope⟩) .bytes ∈ s₁.function.prologue.toList := by
      obtain ⟨-, rfl⟩ := runs_storeFirst.1 hfirst
      exact (FunctionDraft.extends_setup _ _ s.function.taken).prologue.subset hmem
    have haddress :
      (Value.register (s.slotName ⟨name, scope⟩) (.ptr .bytes)).Known s₁.function.visible :=
      List.mem_append_left _ (List.mem_append_right _ (List.mem_filterMap.mpr ⟨_, hprologue, rfl⟩))
    have a₂ := hsize.appends
    have a₃ := hmalloc.appends
    have a₄ := hstore.appends
    obtain ⟨hs₂, hsizeKnown, hsizeTy⟩ := hs₁.byteCount hsize
    obtain ⟨hs₃, hknown, hvty⟩ := hs₂.malloc hsizeKnown hsizeTy hmalloc
    have hs₄ := hs₃.store hknown (hs₁.known_mono (a₂.trans a₃) haddress) hstore
    have hall := a₂.trans (a₃.trans a₄)
    have hfits : SlotFits s₄.function
        { address := .register (s.slotName ⟨name, scope⟩) (.ptr .bytes), kind := .scalar .string,
          length := some length } := by
      obtain ⟨is, his⟩ := hall.function
      refine ⟨_, .bytes, rfl, ?_, rfl⟩
      rw [his]
      exact hprologue
    exact ⟨hs₄.withSlot name hfits, (hsees₀.trans (hsees₁.trans (hs₁.sees hall)) : Sees s s₄),
      hs₃.known_mono a₄ hknown, hvty⟩

/-! ### Statements without bodies -/

theorem assign (hs : s.Sound scope) {a : Assignment} (h : Runs (assign scope a) s u s') :
    s'.Sound scope := by
  cases runs_assign h with
  | string x shape htarget hty hsource hbuffer hsize hcopy =>
    obtain ⟨hs₁, hsourceKnown, hsourceTy⟩ := hs.valueOf hsource
    obtain ⟨hs₂, hsees, hbufferKnown, hbufferTy⟩ := hs₁.stringBuffer hbuffer
    obtain ⟨hs₃, hsizeKnown, hsizeTy⟩ := hs₂.byteCount hsize
    have a₃ := hsize.appends
    rw [irTy?, Option.some.injEq] at hsourceTy
    exact hs₃.memcpy (hs₂.known_mono a₃ hbufferKnown) (hs₂.known_mono a₃ (hsourceKnown.mono hsees))
      hsizeKnown hbufferTy hsourceTy.symm hsizeTy hcopy
  | scalar x shape htarget hty hvalue hslot hstore =>
    obtain ⟨hs₁, hvalueKnown, -⟩ := hs.valueOf hvalue
    obtain ⟨hs₂, hsees, haddress⟩ := hs₁.scalarSlot hslot
    exact hs₂.store (hvalueKnown.mono hsees) haddress hstore
  | element x index ty htarget hty hvalue haddress hstore =>
    obtain ⟨hs₂, hvalueKnown, -⟩ := hs.valueOf hvalue
    obtain ⟨hs₃, haddressKnown, -⟩ := hs₂.elementAddress haddress
    have a₃ := haddress.appends
    exact hs₃.store (hs₂.known_mono a₃ hvalueKnown) haddressKnown hstore

/-- The memory of an array is allocated before its address is stored. -/
theorem arrayMemory (hs : s.Sound scope) {size : Expr} {count wide memory first : Value} {t : Ir.Ty}
    {s₁ s₂ s₃ s₄ : State} (hcount : Runs (Lower.valueOf scope size .int) s count s₁)
    (hwide : Runs (Lower.cast .sext count .i64) s₁ wide s₂)
    (hmalloc : Runs (Lower.malloc wide) s₂ memory s₃)
    (hcast : Runs (Lower.cast .bitcast memory (.ptr t)) s₃ first s₄) :
    s₁.Sound scope ∧ s₂.Sound scope ∧ s₃.Sound scope ∧ s₄.Sound scope ∧
    first.Known s₄.function.visible := by
  obtain ⟨hs₁, hcountKnown, hcountTy⟩ := hs.valueOf hcount
  rw [irTy?, Option.some.injEq] at hcountTy
  have hwidens : CastOp.sext.Converts count.ty .i64 := ⟨hcountTy.symm, rfl⟩
  obtain ⟨hs₂, hwideKnown, hwideTy⟩ := hs₁.cast hcountKnown hwidens hwide
  obtain ⟨hs₃, hmemoryKnown, hmemoryTy⟩ := hs₂.malloc hwideKnown hwideTy hmalloc
  have hpoints : CastOp.bitcast.Converts memory.ty (.ptr t) := by
    rw [hmemoryTy]
    exact ⟨rfl, rfl⟩
  obtain ⟨hs₄, hfirstKnown, -⟩ := hs₃.cast hmemoryKnown hpoints hcast
  exact ⟨hs₁, hs₂, hs₃, hs₄, hfirstKnown⟩

theorem declareArray (hs : s.Sound scope) {size : Expr}
    (h : Runs (declareArray scope ty name size) s u s') : s'.Sound scope := by
  obtain ⟨count, wide, memory, first, address, t, s₁, s₂, s₃, s₄, s₅, hcount, hwide, hmalloc, ht,
    hcast, hslot, hstore⟩ := runs_declareArray h
  obtain ⟨-, -, -, hs₄, hfirstKnown⟩ := hs.arrayMemory hcount hwide hmalloc hcast
  rcases hslot with ⟨slot, hslot, -, rfl, rfl⟩ | ⟨-, rfl, rfl⟩
  · obtain ⟨_, _, _, haddress⟩ := hs₄.slot hslot
    exact hs₄.store hfirstKnown haddress hstore
  · obtain ⟨hs₅, hsees, hmem⟩ := hs₄.reserved ⟨name, scope⟩ (.ptr t)
    have hfits : SlotFits (s₄.reserved ⟨name, scope⟩ (.ptr t)).function
        { address := .register (s₄.slotName ⟨name, scope⟩) (.ptr (.ptr t)), kind := .array ty } :=
      ⟨_, .ptr t, rfl, hmem, by simp [kindTy?, ht]⟩
    refine (hs₅.withSlot name hfits).store (hfirstKnown.mono hsees) ?_ hstore
    exact List.mem_append_left _ (List.mem_append_right _ (List.mem_filterMap.mpr ⟨_, hmem, rfl⟩))

theorem run (hs : s.Sound scope) {callee : String} {signature : Signature}
    (hret : signature.ret = .i32) (hcallee : s.Callable callee signature)
    (hargs : ∀ v ∈ args, v.Known s.function.visible) (htakes : signature.Takes args)
    (h : Runs (run callee signature args) s u s') : s'.Sound scope := by
  obtain rfl := (runs_run (by rw [hret]; simp)).1 h
  exact (hs.emit_call hcallee hargs htakes).1

theorem printf (hs : s.Sound scope) {format : Value} (hformat : format.ty = .bytes)
    (hargs : ∀ v ∈ format :: args, v.Known s.function.visible)
    (h : Runs (printf (format :: args)) s u s') : s'.Sound scope := by
  have hrun := runs_get_bind.1 h
  rw [hs.routines] at hrun
  exact hs.run rfl (.inl (by simp [Routines.declarations])) hargs
    ⟨by simp [Routines.standard, hformat], by simp [Routines.standard]⟩ hrun

theorem scanf (hs : s.Sound scope) {format : Value} (hformat : format.ty = .bytes)
    (hargs : ∀ v ∈ format :: args, v.Known s.function.visible)
    (h : Runs (scanf (format :: args)) s u s') : s'.Sound scope := by
  have hrun := runs_get_bind.1 h
  rw [hs.routines] at hrun
  exact hs.run rfl (.inl (by simp [Routines.declarations])) hargs
    ⟨by simp [Routines.standard, hformat], by simp [Routines.standard]⟩ hrun

theorem output (hs : s.Sound scope) {e : Expr} (h : Runs (output scope e) s u s') :
    s'.Sound scope := by
  obtain ⟨value, s₁, hvalue, hrun₁⟩ := runs_bind.1 h
  obtain ⟨form, s₂, hformat, hrun₂⟩ := runs_bind.1 hrun₁
  obtain ⟨_, s₃, hprint, hrun₃⟩ := runs_bind.1 hrun₂
  obtain ⟨newline, s₅, hbyte, hbreak⟩ := runs_bind.1 (runs_get_bind.1 hrun₃)
  obtain ⟨hs₁, hvalueKnown, -⟩ := hs.valueOf hvalue
  obtain ⟨hs₂, hformKnown, hformTy⟩ := hs₁.format hformat
  have a₂ := hformat.appends
  have hs₃ := hs₂.printf hformTy (by simpa using ⟨hformKnown, hs₁.known_mono a₂ hvalueKnown⟩) hprint
  rw [hs₃.routines] at hbyte
  obtain ⟨hs₅, hbreakKnown, hbreakTy⟩ :=
    hs₃.firstByte (hs₃.stocked.formats (by simp [Routines.formats])) hbyte
  exact hs₅.printf hbreakTy (by simpa using hbreakKnown) hbreak

theorem inputPlace (hs : s.Sound scope) {target : Target} {ptr : Value}
    (h : Runs (inputPlace scope target) s (ptr, ty) s') : s'.Sound scope ∧
    ptr.Known s'.function.visible := by
  cases runs_inputPlace h with
  | buffer hslot hkind hload =>
    obtain ⟨_, _, _, haddress⟩ := hs.slot hslot
    obtain ⟨hs', hknown, -⟩ := hs.load haddress hload
    exact ⟨hs', hknown⟩
  | slot hslot hkind hty hptr hs' =>
    obtain ⟨_, _, _, haddress⟩ := hs.slot hslot
    rw [hptr, hs']
    exact ⟨hs, haddress⟩
  | element haddress =>
    obtain ⟨hs', hknown, -⟩ := hs.elementAddress haddress
    exact ⟨hs', hknown⟩

theorem input (hs : s.Sound scope) {target : Target} (h : Runs (input scope target) s u s') :
    s'.Sound scope := by
  obtain ⟨⟨ptr, ty⟩, s₁, hplace, hrun₁⟩ := runs_bind.1 h
  obtain ⟨form, s₂, hformat, hscan⟩ := runs_bind.1 hrun₁
  obtain ⟨hs₁, hptr⟩ := hs.inputPlace hplace
  obtain ⟨hs₂, hformKnown, hformTy⟩ := hs₁.format hformat
  have a₂ := hformat.appends
  exact hs₂.scanf hformTy (by simpa using ⟨hformKnown, hs₁.known_mono a₂ hptr⟩) hscan

end State.Sound

/-! ### Conditionals and loops -/

namespace State.Sound

variable {scope : Scope} {s s₁ s' : State} {v : Value} {u : Unit}

theorem moved (hs : s.Sound scope) (hg : g.Sound s.Allows) (hsteps : s.function.Steps g)
    {storage : Storage}
    (hslots : ∀ (symbol : Symbol) (slot : Slot), storage[symbol]? = some slot →
      symbol.scope = scope → SlotFits g slot)
    (hscopes : ∀ (symbol : Symbol) (slot : Slot), storage[symbol]? = some slot →
      Declared s symbol.scope) :
    (s.moved g storage).Sound scope := by
  obtain ⟨hname, -, hret⟩ := hsteps.signature_eq
  refine ⟨hg, hslots, hscopes, hs.declared, hs.subroutines, ?_, ?_, hs.main, hs.routines,
    hs.stocked, hs.functions⟩
  · intro sub hsub
    rw [State.moved_function, hret]
    exact hs.returns sub (by rw [← hname]; exact hsub)
  · rw [State.moved_function, hname]
    exact hs.named

/-- Moving on in the function, back to the storage of an earlier state. -/
theorem movedBack (hs₁ : s₁.Sound scope) (hs : s.Sound scope) (hkeeps : Keeps scope s s₁)
    (hg : g.Sound s₁.Allows)
    (hsteps : s₁.function.Steps g) : (s₁.moved g s.storage).Sound scope := by
  refine hs₁.moved hg hsteps ?_ ?_
  · intro symbol slot hslot hscope
    exact (hs.slots symbol slot hslot hscope).mono (hkeeps.steps.trans hsteps).prologue
  · intro symbol slot hslot
    exact (hs.scopes symbol slot hslot).mono hkeeps.mem_subroutines

/-- A slot that is known where two paths meet is known on one of them, but for the size of its
buffer. -/
theorem join_cases {ours theirs : Storage} {symbol : Symbol} {slot : Slot}
    (h : (ours.join theirs)[symbol]? = some slot) :
    ∃ found, (ours[symbol]? = some found ∨ theirs[symbol]? = some found) ∧
    slot.address = found.address ∧
      slot.kind = found.kind := by
  rw [Storage.getElem?_join] at h
  cases hours : ours[symbol]? with
  | none =>
    simp only [hours] at h
    obtain ⟨found, hfound, rfl⟩ := Option.map_eq_some_iff.mp h
    exact ⟨found, Or.inr hfound, rfl, rfl⟩
  | some found =>
    simp only [hours, Option.some.injEq] at h
    refine ⟨found, Or.inl rfl, ?_⟩
    rw [← h, Slot.meet.eq_def]
    split
    · split <;> exact ⟨rfl, rfl⟩
    · exact ⟨rfl, rfl⟩

section

variable {condition : Expr} {join? : Option Nat} {body : Lowering Unit}
  {rest? : Option (Nat → Lowering Unit)} {truth : Value} {s₂ s₃ : State} {k : FunctionDraft.Fork}

theorem armBody (hs : s.Sound scope)
    (h : ArmRun scope condition join? body rest? s s' truth s₁ s₂ s₃ k) :
    (s₁.moved (k.function.switchTo k.body) s₁.storage).Sound scope := by
  obtain rfl := h.fork
  obtain ⟨hs₁, htruth, htruthTy⟩ := hs.truthOf h.condition
  have hfork := hs₁.function.fork htruth htruthTy join? rest?.isSome
  have hin : s₁.function.blocks.size <
    (s₁.function.fork truth join? rest?.isSome).function.blocks.size := by
    rw [FunctionDraft.fork_size]
    exact Nat.lt_add_of_pos_right (by simp [FunctionDraft.forkHints])
  exact hs₁.movedBack hs₁ (Keeps.refl _) (hfork.switchTo hin)
    ((FunctionDraft.steps_fork s₁.function truth join? rest?.isSome).switchTo
      s₁.function.blocks.size)

/-- The state in which what follows the body of an arm begins is sound, if the one is in which the
body ends. -/
theorem armOtherwise (hs : s.Sound scope) (hs₂ : s₂.Sound scope) (hrest : rest?.isSome)
    (h : ArmRun scope condition join? body rest? s s' truth s₁ s₂ s₃ k) :
    (s₁.otherwise s₂ k).Sound scope :=
  hs₂.movedBack (hs.truthOf h.condition).1 h.thenKeeps
    ((hs₂.function.fallTo k.join).switchTo (FunctionDraft.current_lt (h.open_otherwise hrest)))
    ((FunctionDraft.steps_fallTo s₂.function k.join).switchTo _)

theorem arm (hs : s.Sound scope)
    (hbody : (s₁.moved (k.function.switchTo k.body) s₁.storage).Sound scope → s₂.Sound scope)
    (hrest : rest?.isSome → (s₁.otherwise s₂ k).Sound scope → s₃.Sound scope)
    (h : ArmRun scope condition join? body rest? s s' truth s₁ s₂ s₃ k) : s'.Sound scope := by
  obtain ⟨hs₁, -, -⟩ := hs.truthOf h.condition
  have hs₂ := hbody (hs.armBody h)
  have hs₃ : s₃.Sound scope := by
    cases hrest? : rest? with
    | none =>
      rw [h.alone hrest?]
      exact hs₂.movedBack hs₁ h.thenKeeps (hs₂.function.fallTo k.join)
        (FunctionDraft.steps_fallTo _ _)
    | some rest =>
      have hsome : rest?.isSome := by rw [hrest?]; rfl
      exact hrest hsome (hs.armOtherwise hs₂ hsome h)
  obtain ⟨hprologue, hsubroutines⟩ := h.after_body
  have hjoin : ∀ g : FunctionDraft, g.Sound s₃.Allows → s₃.function.Steps g →
      (s₃.moved g (s₃.storage.join s₂.storage)).Sound scope := by
    intro g hg hgsteps
    refine hs₃.moved hg hgsteps ?_ ?_
    · intro symbol slot hslot hscope
      obtain ⟨found, hfound, haddress, hkind⟩ := join_cases hslot
      rcases hfound with hours | htheirs
      · exact ((hs₃.slots symbol found hours hscope).of_eq haddress hkind).mono hgsteps.prologue
      · exact ((hs₂.slots symbol found htheirs hscope).of_eq haddress hkind).mono
          (hprologue.trans hgsteps.prologue)
    · intro symbol slot hslot
      obtain ⟨found, hours | htheirs, -, -⟩ := join_cases hslot
      · exact hs₃.scopes symbol found hours
      · exact (hs₂.scopes symbol found htheirs).mono hsubroutines
  rw [h.result]
  cases join? with
  | some join => exact hjoin _ hs₃.function .refl
  | none =>
    obtain ⟨label, hlabel⟩ := h.join_empty
    exact hjoin _ (hs₃.function.switchTo (Array.getElem?_eq_some_iff.mp hlabel).1)
      (FunctionDraft.Steps.refl.switchTo _)

end

theorem loopBody (hs : s.Sound scope) (kind : String) :
    (s.moved (s.function.enter kind) (s.storage.forgetLengths scope)).Sound scope := by
  refine hs.moved (hs.function.enter kind) (FunctionDraft.steps_enter _ _) ?_ ?_
  · intro symbol slot hslot hscope
    rw [Storage.getElem?_forgetLengths] at hslot
    obtain ⟨found, hfound, rfl⟩ := Option.map_eq_some_iff.mp hslot
    refine ((hs.slots symbol found hfound hscope).of_eq ?_ ?_).mono
      (FunctionDraft.steps_enter _ _).prologue
    · split <;> rfl
    · split <;> rfl
  · intro symbol slot hslot
    rw [Storage.getElem?_forgetLengths] at hslot
    obtain ⟨found, hfound, -⟩ := Option.map_eq_some_iff.mp hslot
    exact hs.scopes symbol found hfound

theorem loop (hs : s.Sound scope) {kind : String} {body step : Lowering Unit} {condition : Expr}
    {truth : Value} {s₂ s₃ : State}
    (hbody : (s.moved (s.function.enter kind) (s.storage.forgetLengths scope)).Sound scope →
      s₁.Sound scope)
    (hstep : s₁.Sound scope → s₂.Sound scope)
    (h : LoopRun scope kind body step condition s s' truth s₁ s₂ s₃) : s'.Sound scope := by
  have hs₂ := hstep (hbody (hs.loopBody kind))
  obtain ⟨hs₃, htruth, htruthTy⟩ := hs₂.truthOf h.condition
  obtain ⟨label, hlabel⟩ := h.exit_empty
  have hexit : s.function.blocks.size + 1 < (s₃.function.condBranch truth s.function.blocks.size
      (s.function.blocks.size + 1)).blocks.size := by
    rw [FunctionDraft.condBranch, FunctionDraft.terminate_size]
    exact (Array.getElem?_eq_some_iff.mp hlabel).1
  rw [h.result]
  exact hs₃.movedBack hs₃ (Keeps.refl _)
    ((hs₃.function.condBranch htruth htruthTy _ _).switchTo hexit)
    ((FunctionDraft.Steps.refl.terminate _).switchTo _)

/-! ### Subroutines -/

theorem leaveWith (hs : s.Sound scope) {e : Expr} (h : Runs (leaveWith scope e) s u s') :
    s'.Sound scope := by
  obtain ⟨sub, value, s₁, hsub, hvalue, rfl⟩ := runs_leaveWith h
  obtain ⟨hs₁, hknown, hty⟩ := hs.valueOf hvalue
  have happends := hvalue.appends
  -- The value has the type that the function returns, since the subroutine is the one of the
  -- function.
  have hret : value.ty = s₁.function.ret := by
    obtain ⟨is, his⟩ := happends.function
    have hreturns := hs₁.returns sub (by rw [happends.subroutines, his]; exact hsub)
    rw [hty, Option.some.injEq] at hreturns
    exact hreturns
  have hleave : (s₁.function.leave (some value)).Sound s₁.Allows :=
    hs₁.function.terminate ⟨hret, by simpa [Terminator.operands] using hknown⟩
  have hin : s₁.function.blocks.size <
      ((s₁.function.leave (some value)).createBlock "after.return").2.blocks.size := by
    rw [FunctionDraft.createBlock_size, FunctionDraft.leave, FunctionDraft.terminate_size]
    exact Nat.lt_succ_self _
  exact hs₁.movedBack hs₁ (Keeps.refl _) ((hleave.createBlock _).switchTo hin)
    (((FunctionDraft.Steps.refl.terminate _).createBlock (by simp)).switchTo _)

theorem storeParams {pairs : List (Param × Ir.Param)} (hs : s.Sound scope)
    (hparams : ∀ pair ∈ pairs, pair.2 ∈ s.function.params)
    (h : Runs (storeParams scope pairs) s u s') : s'.Sound scope := by
  induction pairs generalizing s with
  | nil =>
    obtain rfl := runs_forM_nil.1 h
    exact hs
  | cons pair pairs ih =>
    obtain ⟨s₁, hone, hrest⟩ := runs_forM_cons.1 h
    obtain ⟨address, s₂, hslot, hstore⟩ := runs_bind.1 hone
    obtain ⟨hs₂, hsees, haddress⟩ := hs.scalarSlot hslot
    have hpassed : pair.2.value.Known s.function.visible :=
      List.mem_append_left _ (List.mem_append_left _
        (List.mem_map.mpr ⟨pair.2, hparams pair List.mem_cons_self, rfl⟩))
    have hs₁ := hs₂.store (hpassed.mono hsees) haddress hstore
    refine ih hs₁ (fun other hother => ?_) hrest
    have hsame : s₁.function.params = s.function.params := by
      obtain ⟨-, rfl⟩ := runs_store.1 hstore
      rcases runs_scalarSlot hslot with ⟨slot, -, -, -, rfl⟩ | ⟨-, t, -, -, rfl⟩ <;> rfl
    rw [hsame]
    exact hparams other (List.mem_cons_of_mem _ hother)

/-- The state in which the body of a subroutine is lowered is sound, in the scope of the
subroutine. -/
theorem within (hs : s.Sound scope) {irParams : List Ir.Param} {ret : Ir.Ty}
    (hreserved : name ∉ Routines.reserved) (hnew : name ∉ s.subroutines)
    (hfit : ParamsFit params irParams) (hret : irTy? ty = some ret) :
    (s.within name irParams ret ⟨⟨ret, irParams.map Ir.Param.ty, false⟩, params.map Param.ty,
      ty⟩).Sound (.subroutine name) := by
  refine ⟨FunctionDraft.Sound.start name ret hfit.dotted, ?_, ?_, ?_, ?_, ?_, ?_, ?_, hs.routines,
    hs.stocked, ?_⟩
  · -- There are no slots of the new scope.
    intro symbol slot hslot hscope
    have hdeclared := hs.scopes symbol slot hslot
    rw [hscope] at hdeclared
    exact absurd hdeclared hnew
  · intro symbol slot hslot
    exact (hs.scopes symbol slot hslot).mono fun other hother => Std.TreeMap.mem_insert.mpr
      (Or.inr hother)
  · exact Std.TreeMap.mem_insert_self
  · intro other found hfound
    rcases insert_cases hfound with ⟨-, rfl⟩ | hold
    · exact ⟨hret, hfit.types, rfl⟩
    · exact hs.subroutines other found hold
  · intro found hfound
    rcases insert_cases hfound with ⟨-, rfl⟩ | hold
    · exact hret
    · exact absurd (Std.TreeMap.mem_iff_isSome_getElem?.mpr (Option.isSome_of_eq_some hold)) hnew
  · exact Or.inr Std.TreeMap.mem_insert_self
  · intro hmain
    rcases Std.TreeMap.mem_insert.mp hmain with heq | hold
    · rw [Std.LawfulEqOrd.compare_eq_iff_eq] at heq
      exact hreserved (by rw [heq]; exact List.mem_cons_self)
    · exact hs.main hold
  · refine fun f hf => (hs.functions f hf).imp_right fun honly => honly.mono
      (State.Allows.later (List.prefix_refl _) ?_)
    exact fun other found hfound => getElem?_insert_of_new hnew _ hfound

/-- A subroutine.  Its function is finished, and the one that was there is gone on with. -/
theorem subroutine (hs : s.Sound scope) {body : List Stmt}
    (hbody : ∀ s s', s.function.Open → Runs (block (.subroutine name) body) s () s' →
      s.Sound (.subroutine name) → s'.Sound (.subroutine name))
    (h : Runs (subroutine name params ty (block (.subroutine name) body)) s u s') :
    s'.Sound scope := by
  have hkeeps := block_keeps (.subroutine name) body
  obtain ⟨kept, -⟩ := keeps_subroutine scope hkeeps h
  obtain ⟨hreserved, hnew, irParams, ret, s₁, s₂, f, hfit, hret, hstore, hrun, hfinish, rfl⟩ :=
    runs_subroutine h
  have hs₀ := hs.within hreserved hnew hfit hret
  obtain ⟨k₁, o₁⟩ := keeps_storeParams _ _ (open_start name irParams ret) hstore
  obtain ⟨k₂, -⟩ := hkeeps _ _ o₁ hrun
  have hs₁ := hs₀.storeParams (fun pair hpair => (List.of_mem_zip hpair).2) hstore
  have hs₂ := hbody _ _ o₁ hrun hs₁
  have hsteps := k₁.steps.trans k₂.steps
  have hf : Finished f.build ∧ f.build.Only s₂.Allows := by
    rcases hfinish with ⟨-, rfl⟩ | ⟨-, value, hty, hconstant, rfl⟩
    · exact Finished.of_steps hs₂.function hsteps
    · have hsame : s₂.function.ret = ret := hsteps.signature_eq.2.2
      rw [hty, Option.some.injEq] at hret
      refine Finished.of_steps (hs₂.function.terminate ⟨?_, ?_⟩) (hsteps.terminate _)
      · exact hret.trans hsame.symm
      · simpa [Terminator.operands] using hconstant.known _
  have hother : scope ≠ .subroutine name := by
    intro heq
    have hdeclared := hs.declared
    rw [heq] at hdeclared
    exact hnew hdeclared
  refine ⟨hs.function.weaken (State.Allows.later kept.globals kept.subroutines), ?_, ?_,
    hs.declared.mono kept.mem_subroutines, hs₂.subroutines, ?_, ?_, hs₂.main, hs₂.routines,
    ⟨hs₂.stocked.declarations, hs₂.stocked.formats, hs₂.stocked.names⟩, ?_⟩
  · intro symbol slot hslot hscope
    have hsame := (k₁.trans k₂).others symbol (by rw [hscope]; exact hother) (by
      rw [hscope]
      exact hs.declared.mono fun other hmem => Std.TreeMap.mem_insert.mpr (Or.inr hmem))
    exact hs.slots symbol slot (hsame.symm.trans hslot) hscope
  · intro symbol slot hslot
    exact (hs₂.scopes symbol slot hslot).mono fun _ hmem => hmem
  · intro sub hsub
    rcases hs.named with hmain | hmem
    · refine absurd (Std.TreeMap.mem_iff_isSome_getElem?.mpr ?_) hs₂.main
      rw [← hmain, show s₂.subroutines[s.function.name]? = some sub from hsub]
      rfl
    · rw [Std.TreeMap.mem_iff_isSome_getElem?] at hmem
      obtain ⟨found, hfound⟩ := Option.isSome_iff_exists.mp hmem
      have hsame := kept.subroutines _ found hfound
      rw [hsub, Option.some.injEq] at hsame
      rw [hsame]
      exact hs.returns found hfound
  · exact hs.named.imp id (kept.mem_subroutines _)
  · intro g hg
    rcases Array.mem_push.mp hg with hold | rfl
    · exact hs₂.functions g hold
    · exact hf

theorem logged (hs : s.Sound scope) (log : Array Event) : State.Sound scope { s with log } :=
  ⟨hs.function, hs.slots, fun symbol slot hslot => (hs.scopes symbol slot hslot).mono fun _ h => h,
    hs.declared.mono fun _ h => h, hs.subroutines, hs.returns, hs.named, hs.main, hs.routines,
    hs.stocked, hs.functions⟩

end State.Sound

/-! ### Statements -/

theorem sound_walk : Walk (fun scope _ s s' => s.Sound scope → s'.Sound scope)
    (fun scope _ s s' => s.Sound scope → s'.Sound scope) fun scope _ _ s s' => s.Sound scope →
    s'.Sound scope where
  logged _ h hs := h (hs.logged _)
  expr _ h hs := ((operand_sound _ _).sound _ _ _ hs h).1
  assign _ h hs := hs.assign h
  array _ h hs := hs.declareArray h
  output _ h hs := hs.output h
  input _ h hs := hs.input h
  ifThen _ harm hbody hrest hs := hs.arm hbody hrest harm
  whileLoop hloop hbody hs := hs.loop hbody id hloop
  forLoop _ hinit _ hloop hbody hs :=
  (hs.assign hinit).loop hbody (fun hs => hs.assign hloop.step) hloop
  subroutine _ h hbody hs := hs.subroutine hbody h
  ret _ h hs := hs.leaveWith h
  nil hs := hs
  cons _ _ _ _ _ _ h₁ h₂ hs := h₂ (h₁ hs)
  body _ _ _ _ hbody hs :=
    (hbody hs).movedBack (hbody hs) (Keeps.refl _) ((hbody hs).function.fallTo _)
      (FunctionDraft.steps_fallTo _ _)
  elseIf _ _ harm hbody hrest hs := hs.arm hbody hrest harm

theorem block_sound (scope : Scope) (body : List Stmt) (s s' : State) (hs : s.Sound scope)
    (hopen : s.function.Open) (h : Runs (block scope body) s () s') : s'.Sound scope :=
  (sound_walk.block scope body s s' hopen h).2 hs

end Pseudocode.Lower
