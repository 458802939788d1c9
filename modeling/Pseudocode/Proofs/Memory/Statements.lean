import Pseudocode.Proofs.Memory.Buffers

/-!
Copies in the code of a statement.

Behind every statement the strings of the scope are where they should be, if they are so before it,
and the lengths that may have been left are those that `Stmt.lengths` takes down.  Where two arms
meet, no more is known of a buffer than both arms agree on, and where a loop begins nothing is known
of any.
-/

namespace Pseudocode

open Lower

variable {env : Environment} {a init : Assignment} {ty : Ty} {Good : Property} {e condition : Expr}
  {s₂ s₃ : State}

/-! ### Assignments -/

/-- Can what is assigned be copied?  It must not be the variable itself that is assigned. -/
def Assignment.Copies (reads : Prop) (lengths : Lengths) (a : Assignment) : Prop :=
  a.value.Copies reads lengths ∧
    match a.target with
    | .var x shape => shape.ty = .string → reads →
        a.value.Spans lengths shape.length ∧ ∀ shape', a.value ≠ .var x shape'
    | .element _ index _ => index.Copies reads lengths

theorem Assignment.copies_of_agrees {reads : Prop} {lengths : Lengths} {scope : Scope}
    (h : a.Agrees env scope) (hfits : reads → a.fits lengths) : a.Copies reads lengths := by
  obtain ⟨hvalue, htarget⟩ := h
  unfold Assignment.Copies
  unfold Assignment.fits at hfits
  cases hcase : a.target with
  | var x shape =>
    simp only [hcase] at htarget hfits ⊢
    obtain ⟨-, hshape, -⟩ := htarget
    by_cases hstring : shape.ty = .string
    · have hboth : reads → a.value.fits lengths shape.length ∧ a.value.isVar x = false := by
        intro hreads
        have hfit := hfits hreads
        simpa [hstring] using hfit
      have hle : shape.length ≤ a.value.length := by
        rw [hshape]
        exact Nat.le_refl _
      obtain ⟨hcopies, hspans⟩ := a.value.copies_of_agrees hvalue hle fun hreads => (hboth hreads).1
      refine ⟨hcopies, fun _ hreads => ⟨hspans hreads, fun shape' heq => ?_⟩⟩
      have hvar := (hboth hreads).2
      rw [heq, Expr.isVar] at hvar
      simp at hvar
    · have hty : a.value.ty ≠ .string := by
        rw [hshape] at hstring
        exact hstring
      exact ⟨a.value.copies_of_numeric hvalue hty, fun hty => absurd hty hstring⟩
  | element name index ty =>
    simp only [hcase] at htarget ⊢
    obtain ⟨-, hindex, hindexTy, hvalueTy, -⟩ := htarget
    exact ⟨a.value.copies_of_numeric hvalue (Ty.ne_string_of_isNumeric hvalueTy),
      index.copies_of_numeric hindex (Ty.ne_string_of_isNumeric hindexTy)⟩

theorem Assignment.fits_of_numeric (lengths : Lengths) {scope : Scope} (h : a.Agrees env scope)
    (hty : a.ty.isNumeric) : a.fits lengths := by
  obtain ⟨-, htarget⟩ := h
  unfold Assignment.fits
  cases hcase : a.target with
  | var x shape =>
    simp only [hcase] at htarget ⊢
    obtain ⟨-, hshape, hvalueTy⟩ := htarget
    have hne : shape.ty ≠ .string := by
      rw [hvalueTy] at hty
      rw [hshape]
      exact Ty.ne_string_of_isNumeric hty
    simp [hne]
  | element => rfl

theorem Assignment.copies_counterStep (reads : Prop) (lengths : Lengths) (h : init.ty.isNumeric) :
    (counterStep init).Copies reads lengths := by
  have hty : init.ty ≠ .string := Ty.ne_string_of_isNumeric h
  exact ⟨⟨trivial, trivial, fun hstring => absurd hstring hty⟩, fun hstring => absurd hstring hty⟩

namespace Lower

open Ir

variable {reads : Prop} {globals : List Global} {F : FunctionDraft} {scope : Scope}
  {lengths : Lengths} {s s₁ s' : State} {d : Memory} {v : Value} {x name : String} {u : Unit}

theorem step_store_slot {ty : Ir.Ty} (hv : v.Known s.function.visible)
    (hname : d.registers name = .slot name) : d.step (.store v (.register name ty)) =
      { d.setSlot name (d.eval v).copied with stored := name :: d.stored } := by
  have hexec : d.exec (.store v (.register name ty)) = d.setSlot name (d.eval v).copied := by
    show d.write (d.registers name) (d.eval v) = _
    rw [hname]
    rfl
  rw [Memory.step, hexec]
  cases v with
  | null => exact absurd hv id
  | _ => rfl

theorem step_store_element {dest : String} {ty : Ir.Ty} (hv : v.Known s.function.visible)
    (hplain : Plain d (.register dest ty)) :
    d.step (.store v (.register dest ty)) = { d with stored := dest :: d.stored } := by
  have hexec : d.exec (.store v (.register dest ty)) = d := by
    show d.write (d.registers dest) (d.eval v) = d
    cases hptr : d.registers dest with
    | slot name => exact absurd hptr (hplain name)
    | _ => rfl
  rw [Memory.step, hexec]
  cases v with
  | null => exact absurd hv id
  | _ => rfl

/-- Something that is no string is stored in the slot of a variable. -/
theorem leads_store {kind : SlotKind} {t : Ir.Ty} {address : Value} (hs : s.Placed F scope)
    (hd : HoldsStrings reads F scope s.storage lengths d) (hv : v.Known s.function.visible)
    (hslot : SlotRun scope x kind t s s₁ address) (hkind : kindTy? kind = some t) (ht : t ≠ .bytes)
    (hstore : Runs (store v address) s₁ u s') :
    Leads (copies reads globals) F globals s s' d
      (HoldsStrings reads F scope s'.storage (lengths.assign x [])) := by
  refine Leads.of_within fun hwithin => ?_
  obtain ⟨-, rfl⟩ := runs_store.1 hstore
  have hopen₁ := (hslot.straight.keeps hs.opened).2
  have hwithin₁ := (Appends.emit s₁ _).within hopen₁ hwithin
  obtain ⟨name, hready⟩ := hslot.ready hs hkind hwithin₁.function
  have hstill : Leads (copies reads globals) F globals s s₁ d fun d₁ => d₁ = d :=
    Leads.still hready.current hready.blocks rfl
  refine hstill.trans (fun _ => hwithin₁) ?_
  rintro d₁ rfl
  refine Leads.emit hopen₁ ⟨copies_ok (by simp) d₁, fun _ => ?_⟩
  show HoldsStrings reads F scope s₁.storage _ (d₁.step (.store v address))
  rw [hready.address, step_store_slot hv (hd.orderly.addresses name t hready.reserved)]
  refine hd.storeOther (hs.whole.not_buffer hready.reserved ht) hready.slotOf hready.others ?_ _ _
  intro slot hslot
  exact ⟨_, (hready.this slot hslot).trans hready.address⟩

theorem leads_assignString {n : Nat} {source buffer size : Value} (hs : s.Tidy Good scope)
    (hp : s.Placed F scope) (hd : HoldsStrings reads F scope s.storage lengths d)
    (hcopies : e.Copies reads lengths) (hspans : reads → e.Spans lengths n ∧
      ∀ shape, e ≠ .var x shape)
    (hsource : Runs (valueOf scope e .string) s source s₁)
    (hbuffer : Runs (stringBuffer ⟨x, scope⟩ n) s₁ buffer s₂)
    (hsize : Runs (byteCount n) s₂ size s₃) (hcopy : Runs (memcpy buffer source size) s₃ u s') :
    Leads (copies reads globals) F globals s s' d
      (HoldsStrings reads F scope s'.storage (lengths.assign x [n])) := by
  refine Leads.of_within fun hwithin => ?_
  obtain ⟨hs₁, hsourceKnown, hsourceTy⟩ := hs.sound.valueOf hsource
  rw [irTy?, Option.some.injEq] at hsourceTy
  have a₁ := hsource.appends
  have hp₁ := hp.of_appends a₁ hs₁
  obtain ⟨hs₂, hsees, hbufferKnown, hbufferTy⟩ := hs₁.stringBuffer hbuffer
  obtain ⟨k₂, o₂⟩ := keeps_stringBuffer hp₁.opened hbuffer
  have a₃ := hsize.appends.trans hcopy.appends
  have hwithin₂ := a₃.within o₂ hwithin
  have hp₂ : s₂.Placed F scope := ((hs.of_appends a₁ hs₁).straight State.Tidy.isScalar_array
    (straight_stringBuffer hbuffer) hs₂).placed o₂ hp.whole hwithin₂.function
  obtain ⟨-, -, hquiet⟩ :=
    quiet_copy reads globals hp₂ hsize hcopy hbufferKnown (hsourceKnown.mono hsees) hbufferTy
    hsourceTy.symm
  refine Leads.trans (quiet_valueOf globals hp hd hcopies hsource) (fun _ => k₂.within hwithin₂) ?_
  rintro d₁ ⟨hd₁, hfetched⟩
  have hholds : HoldsStrings reads F scope s₁.storage lengths d₁ := by
    rw [a₁.storage]
    exact hd.undisturbed hp.whole hd₁
  refine Leads.trans (leads_stringBuffer hp₁ hholds hbuffer) (fun _ => hwithin₂) ?_
  intro d₂ hbuffered
  have heval := hbuffered.values source hsourceKnown
  refine Leads.mono (hquiet d₂ (hbuffered.room.spans (Nat.le_refl n)) (fun hreads => ?_) ?_)
    fun d' hd' => ?_
  · obtain ⟨hspans, hother⟩ := hspans hreads
    have hsourced := hfetched.sourced hreads hsourceTy.symm
    rw [heval]
    exact hbuffered.foreign _ n (hsourced.foreign x hother) (hsourced.copyable n hspans)
  · intro name
    rw [heval]
    exact hfetched.plain name
  · rw [a₃.storage]
    exact hbuffered.holds.undisturbed hp.whole hd'.1

/-- **Behind an assignment strings are where they should be.** -/
theorem leads_assign (hs : s.Tidy Good scope) (hp : s.Placed F scope)
    (hd : HoldsStrings reads F scope s.storage lengths d) (ha : a.Copies reads lengths)
    (h : Runs (assign scope a) s u s') :
    Leads (copies reads globals) F globals s s' d
    (HoldsStrings reads F scope s'.storage (a.lengths lengths)) := by
  unfold Assignment.Copies at ha
  unfold Assignment.lengths
  cases runs_assign h with
  | string x shape htarget hty hsource hbuffer hsize hcopy =>
    simp only [htarget, if_pos hty] at ha ⊢
    exact leads_assignString hs hp hd ha.1 (ha.2 hty) hsource hbuffer hsize hcopy
  | scalar x shape htarget hty hvalue hslot hstore =>
    simp only [htarget, if_neg hty] at ha ⊢
    obtain ⟨hs₁, hvalueKnown, hvalueTy⟩ := hs.sound.valueOf hvalue
    have a₁ := hvalue.appends
    have hp₁ := hp.of_appends a₁ hs₁
    obtain ⟨k₂, o₂⟩ := keeps_scalarSlot hp₁.opened hslot
    have a₃ := hstore.appends
    refine Leads.trans (quiet_valueOf globals hp hd ha.1 hvalue)
      (fun hwithin => k₂.within (a₃.within o₂ hwithin)) ?_
    rintro d₁ ⟨hd₁, -⟩
    refine leads_store hp₁ ?_ hvalueKnown (slotRun_scalar hvalueTy hslot) hvalueTy
      (irTy?_ne_bytes hty hvalueTy) hstore
    rw [a₁.storage]
    exact hd.undisturbed hp.whole hd₁
  | element x index ty htarget hty hvalue haddress hstore =>
    simp only [htarget] at ha ⊢
    obtain ⟨hs₂, hvalueKnown, -⟩ := hs.sound.valueOf hvalue
    have a₂ := hvalue.appends
    have hp₂ := hp.of_appends a₂ hs₂
    have a₃ := haddress.appends
    have a₄ := hstore.appends
    have o₃ := a₃.open hp₂.opened
    refine Leads.trans (quiet_valueOf globals hp hd ha.1 hvalue)
      ((a₃.trans a₄).within hp₂.opened) ?_
    rintro d₂ ⟨hd₂, -⟩
    have hholds := hd.undisturbed hp.whole hd₂
    rw [← a₂.storage] at hholds
    obtain ⟨k, pty, haddr, -, hq⟩ := quiet_elementAddress hp₂ hholds
      (operand_careful reads F globals scope lengths index ha.2) haddress
    refine Leads.trans hq (a₄.within o₃) ?_
    rintro d₃ ⟨hd₃, hplain⟩
    rw [a₄.storage, a₃.storage]
    obtain ⟨-, rfl⟩ := runs_store.1 hstore
    refine Leads.emit o₃ ⟨copies_ok (by simp) d₃, fun _ => ?_⟩
    rw [haddr] at hplain ⊢
    have hstep := step_store_element (hvalueKnown.mono (hs₂.sees a₃)) hplain
    rw [show (copies reads globals).step _ d₃ = _ from hstep]
    exact (hholds.undisturbed hp.whole hd₃).storeElement k

/-! ### Arrays, printing and reading -/

theorem leads_declareArray {size : Expr} (hs : s.Placed F scope)
    (hd : HoldsStrings reads F scope s.storage lengths d) (hsize : size.Copies reads lengths)
    (h : Runs (declareArray scope ty x size) s u s') :
    Leads (copies reads globals) F globals s s' d
      (HoldsStrings reads F scope s'.storage (lengths.assign x [])) := by
  refine Leads.of_within fun hwithin => ?_
  obtain ⟨count, wide, memory, first, address, t, s₁, s₂, s₃, s₄, s₅, hcount, hwide, hmalloc, ht,
    hcast, hslot, hstore⟩ := runs_declareArray h
  obtain ⟨hs₁, hs₂, hs₃, hs₄, hfirstKnown⟩ := hs.sound.arrayMemory hcount hwide hmalloc hcast
  have a₁ := hcount.appends
  have a₂ := hwide.appends
  have a₃ := hmalloc.appends
  have a₄ := hcast.appends
  have hp₁ := hs.of_appends a₁ hs₁
  have hp₂ := hp₁.of_appends a₂ hs₂
  have hp₃ := hp₂.of_appends a₃ hs₃
  have hp₄ := hp₃.of_appends a₄ hs₄
  have q₄ : Quiet reads globals F s s₄ d fun _ => True := by
    refine (quiet_valueOf globals hs hd hsize hcount).trans hs a₁ (a₂.trans (a₃.trans a₄))
      fun d₁ _ _ => ?_
    refine (quiet_cast hp₁ hwide d₁).trans hp₁ a₂ (a₃.trans a₄) fun d₂ _ _ => ?_
    refine (quiet_malloc hp₂ hmalloc d₂).trans hp₂ a₃ a₄ fun d₃ _ _ => ?_
    exact (quiet_cast hp₃ hcast d₃).mono fun _ _ _ => trivial
  have hkind : kindTy? (.array ty) = some (.ptr t) := by rw [kindTy?, ht]; rfl
  have hne : Ir.Ty.ptr t ≠ .bytes := by
    intro heq
    rw [Ir.Ty.ptr.inj heq] at ht
    cases ty <;> simp [irTy?, Ir.Ty.bytes] at ht
  obtain ⟨k₅, o₅⟩ := SlotRun.straight hslot |>.keeps hp₄.opened
  have hwithin₄ := k₅.within (hstore.appends.within o₅ hwithin)
  refine Leads.trans q₄ (fun _ => hwithin₄) ?_
  rintro d₄ ⟨hd₄, -⟩
  refine leads_store hp₄ ?_ hfirstKnown hslot hkind hne hstore
  rw [(a₁.trans (a₂.trans (a₃.trans a₄))).storage]
  exact hd.undisturbed hs.whole hd₄

theorem quiet_format (hs : s.Placed F scope) (h : Runs (format ty) s v s') (d : Memory) :
    Quiet reads globals F s s' d fun d' => Plain d' v := by
  obtain ⟨global, hglobal, hbyte⟩ := runs_format.1 h
  rw [hs.sound.routines] at hglobal
  cases ty with
  | undetermined => simp [Routines.format?] at hglobal
  | _ =>
    rw [Routines.format?, Option.some.injEq] at hglobal
    rw [← hglobal] at hbyte
    refine (quiet_firstByte hs hbyte d).mono fun d' _ heval name => ?_
    rw [heval]
    simp

theorem quiet_printf {args : List Value} (hs : s.Placed F scope) (h : Runs (printf args) s u s')
    (hargs : ∀ arg ∈ args, Plain d arg) : Quiet reads globals F s s' d fun _ => True := by
  obtain rfl :=
    (runs_run (by rw [hs.sound.routines]; exact Ir.Ty.noConfusion)).1 (runs_get_bind.1 h)
  exact (quiet_unknown hs (copies_ok (by simp) d) (step_call (by simp) (by simp) hargs _) .i32).mono
    fun _ _ _ => trivial

theorem quiet_output (hs : s.Placed F scope) (hd : HoldsStrings reads F scope s.storage lengths d)
    (he : e.Copies reads lengths) (h : Runs (output scope e) s u s') :
    Quiet reads globals F s s' d fun _ => True := by
  obtain ⟨value, s₁, hvalue, hrun₁⟩ := runs_bind.1 h
  obtain ⟨form, s₂, hformat, hrun₂⟩ := runs_bind.1 hrun₁
  obtain ⟨_, s₃, hprint, hrun₃⟩ := runs_bind.1 hrun₂
  obtain ⟨newline, s₅, hbyte, hbreak⟩ := runs_bind.1 (runs_get_bind.1 hrun₃)
  obtain ⟨hs₁, hvalueKnown, -⟩ := hs.sound.valueOf hvalue
  obtain ⟨hs₂, hformKnown, hformTy⟩ := hs₁.format hformat
  have a₁ := hvalue.appends
  have a₂ := hformat.appends
  have a₃ := hprint.appends
  have a₄ := hbyte.appends
  have a₅ := hbreak.appends
  have hs₃ := hs₂.printf hformTy (by simpa using ⟨hformKnown, hs₁.known_mono a₂ hvalueKnown⟩) hprint
  have hp₁ := hs.of_appends a₁ hs₁
  have hp₂ := hp₁.of_appends a₂ hs₂
  have hp₃ := hp₂.of_appends a₃ hs₃
  rw [hs₃.routines] at hbyte
  have hp₅ := hp₃.of_appends a₄
    (hs₃.firstByte (hs₃.stocked.formats (by simp [Routines.formats])) hbyte).1
  refine (quiet_valueOf globals hs hd he hvalue).trans hs a₁ (a₂.trans (a₃.trans (a₄.trans a₅)))
    fun d₁ _ hfetched => ?_
  have q₂ : Quiet reads globals F s₁ s₂ d₁ fun d₂ => ∀ arg ∈ [form, value], Plain d₂ arg := by
    refine (quiet_format hp₁ hformat d₁).mono fun d₂ hd₂ hplain => ?_
    simpa using ⟨hplain, hfetched.plain.undisturbed hvalueKnown hd₂⟩
  have q₃ := q₂.trans hp₁ a₂ a₃ fun d₂ _ hargs => quiet_printf hp₂ hprint hargs
  refine q₃.trans hp₁ (a₂.trans a₃) (a₄.trans a₅) fun d₃ _ _ => ?_
  refine (quiet_firstByte hp₃ hbyte d₃).trans hp₃ a₄ a₅ fun d₄ _ heval => quiet_printf hp₅ hbreak ?_
  intro arg harg name
  rw [List.mem_singleton.mp harg, heval]
  simp

/-- What is read into is not the slot of a string. -/
theorem quiet_inputPlace {target : Target} {ptr : Value} (hs : s.Placed F scope)
    (hd : HoldsStrings reads F scope s.storage lengths d)
    (htarget : ∀ name index ty, target = .element name index ty → index.Copies reads lengths)
    (h : Runs (inputPlace scope target) s (ptr, ty) s') :
    Quiet reads globals F s s' d fun d' => ∀ name, d'.eval ptr = .slot name → ¬ F.Buffer name := by
  cases runs_inputPlace h with
  | buffer hslot hkind hload =>
    refine (quiet_load hs hload d).mono fun d' _ hd' name heval => ?_
    exact absurd (hd'.1.symm.trans heval) (d.read_ne_slot _ name)
  | slot hslot hkind hne hptr hs' =>
    subst hptr hs'
    obtain ⟨register, t, hplaced⟩ := hs.slots _ _ hslot
    refine Quiet.refl _ fun name heval => ?_
    have hty := hplaced.kind
    rw [hkind] at hty
    rw [hplaced.address] at heval
    rw [Content.slot.inj (heval.symm.trans (hd.orderly.addresses register t hplaced.reserved))]
    exact hs.whole.not_buffer hplaced.reserved (irTy?_ne_bytes hne hty)
  | element haddress =>
    obtain ⟨-, -, -, -, hq⟩ := quiet_elementAddress hs hd
      (operand_careful reads F globals scope lengths _ (htarget _ _ _ rfl)) haddress
    exact hq.mono fun d' _ hplain name heval => absurd heval (hplain name)

theorem leads_input {target : Target} (hs : s.Placed F scope)
    (hd : HoldsStrings reads F scope s.storage lengths d)
    (htarget : ∀ name index ty, target = .element name index ty → index.Copies reads lengths)
    (h : Runs (input scope target) s u s') :
    Leads (copies reads globals) F globals s s' d
    (HoldsStrings reads F scope s.storage lengths) := by
  obtain ⟨⟨ptr, ty⟩, s₁, hplace, hrun₁⟩ := runs_bind.1 h
  obtain ⟨form, s₂, hformat, hscan⟩ := runs_bind.1 hrun₁
  obtain ⟨hs₁, hptr⟩ := hs.sound.inputPlace hplace
  obtain ⟨hs₂, -, -⟩ := hs₁.format hformat
  have a₁ := hplace.appends
  have a₂ := hformat.appends
  have a₃ := hscan.appends
  have hp₁ := hs.of_appends a₁ hs₁
  have hp₂ := hp₁.of_appends a₂ hs₂
  have hplaces : Quiet reads globals F s s₂ d fun d₂ =>
      ∀ arg ∈ [form, ptr], ∀ name, d₂.eval arg = .slot name → ¬ F.Buffer name := by
    refine (quiet_inputPlace hs hd htarget hplace).trans hs a₁ a₂ fun d₁ _ hnot => ?_
    refine (quiet_format hp₁ hformat d₁).mono fun d₂ hd₂ hplain => ?_
    intro arg harg name heval
    rcases List.mem_pair.mp harg with rfl | rfl
    · exact absurd heval (hplain name)
    · rw [hd₂.values arg hptr] at heval
      exact hnot name heval
  refine Leads.trans hplaces (a₃.within hp₂.opened) ?_
  rintro d₂ ⟨hd₂, hargs⟩
  have hscan := runs_get_bind.1 hscan
  obtain rfl := (runs_run (by rw [hs₂.routines]; exact Ir.Ty.noConfusion)).1 hscan
  refine Leads.emit hp₂.opened ⟨copies_ok (by simp) d₂, fun _ => ?_⟩
  have hexposed := (hd.undisturbed hs.whole hd₂).expose hargs
  exact hexposed.undisturbed hs.whole
    (Undisturbed.set hs₂ (d₂.expose [form, ptr]) (c := .unknown) (by simp))

/-! ### Parameters -/

theorem assign_empty (x : String) : Lengths.assign (fun _ => []) x [] = fun _ => [] := by
  funext y
  simp [Lengths.assign]

/-- Where a subroutine begins, its parameters are stored.  They are numbers. -/
theorem leads_storeParams {pairs : List (Param × Ir.Param)} (hs : s.Tidy Good scope)
    (hwhole : F.Whole)
    (hopen : s.function.Open) (hd : HoldsStrings reads F scope s.storage (fun _ => []) d)
    (hnumeric : ∀ pair ∈ pairs, pair.1.ty.isNumeric)
    (hparams : ∀ pair ∈ pairs, pair.2 ∈ s.function.params)
    (h : Runs (storeParams scope pairs) s u s') :
    Leads (copies reads globals) F globals s s' d
    (HoldsStrings reads F scope s'.storage fun _ => []) := by
  induction pairs generalizing s d with
  | nil =>
    obtain rfl := runs_forM_nil.1 h
    exact Leads.refl hd
  | cons pair pairs ih =>
    have hty := hnumeric pair List.mem_cons_self
    obtain ⟨s₁, s₂, t, address, hone⟩ := hs.storeParam hopen hty hparams h
    refine Leads.of_within fun hwithin => ?_
    have hwithin₂ := hone.restKeeps.within hwithin
    have hfirst : Leads (copies reads globals) F globals s s₂ d
        (HoldsStrings reads F scope s₂.storage (Lengths.assign (fun _ => []) pair.1.name [])) :=
      leads_store (hs.placed hopen hwhole (hone.keeps.within hwithin₂).function) hd hone.known
        hone.slot hone.ty (irTy?_ne_bytes (Ty.ne_string_of_isNumeric hty) hone.ty) hone.store
    rw [assign_empty] at hfirst
    exact hfirst.trans (fun _ => hwithin₂) fun d₁ hd₁ => ih hone.tidy hone.opened hd₁
      (fun other hother => hnumeric other (List.mem_cons_of_mem _ hother)) hone.passed hone.rest

/-! ### Conditionals -/

namespace HoldsStrings

variable {ours theirs storage : Storage} {more : Lengths}

/-- Where two arms meet, no more is known than behind the second. -/
theorem join_ours (h : HoldsStrings reads F scope ours lengths d) :
    HoldsStrings reads F scope (ours.join theirs) (more.join lengths) d :=
  h.weaken (fun _ _ _ hslot hlength => (join_length hslot hlength).1)
    fun _ => List.subset_append_right _ _

/-- Where two arms meet, no more is known than behind the first. -/
theorem join_theirs (h : HoldsStrings reads F scope theirs lengths d) :
    HoldsStrings reads F scope (ours.join theirs) (lengths.join more) d :=
  h.weaken (fun _ _ _ hslot hlength => (join_length hslot hlength).2)
    fun _ => List.subset_append_left _ _

/-- Where a loop begins, the sizes of buffers are forgotten. -/
theorem forget {storage' : Storage} (h : HoldsStrings reads F scope storage lengths d)
    (hlengths : ∀ x, lengths x ⊆ more x) :
    HoldsStrings reads F scope (storage'.forgetLengths scope) more d := by
  refine h.weaken ?_ hlengths
  intro x slot n hslot hlength
  rw [Storage.getElem?_forgetLengths] at hslot
  obtain ⟨found, -, rfl⟩ := Option.map_eq_some_iff.mp hslot
  simp [Slot.forget] at hlength

end HoldsStrings

/-- Code behind which strings are where they should be, if they are so before it. -/
def HoldsCode (reads : Prop) (globals : List Global) (F : FunctionDraft) (scope : Scope)
    (lengths lengths' : Lengths) (s s' : State) : Prop :=
  ∀ d, HoldsStrings reads F scope s.storage lengths d →
    Leads (copies reads globals) F globals s s' d (HoldsStrings reads F scope s'.storage lengths')

/-- Code of what follows an arm.  It ends by going on where the arms do. -/
def HoldsRest (reads : Prop) (globals : List Global) (F : FunctionDraft) (scope : Scope)
    (lengths lengths' : Lengths) (join : Nat) (s s' : State) : Prop :=
  ∀ d, HoldsStrings reads F scope s.storage lengths d →
    LeadsTo (copies reads globals) F globals s s' join d
    (HoldsStrings reads F scope s'.storage lengths')

theorem HoldsCode.trans {lengths₁ lengths₂ : Lengths}
    (h₁ : HoldsCode reads globals F scope lengths lengths₁ s s₁)
    (hwithin : s₂.Within F globals → s₁.Within F globals)
    (h₂ : HoldsCode reads globals F scope lengths₁ lengths₂ s₁ s₂) :
    HoldsCode reads globals F scope lengths lengths₂ s s₂ :=
  fun d hd => (h₁ d hd).trans hwithin h₂

/-- Code that disturbs no string. -/
theorem holds_quiet {R : Memory → Prop} (hs : s.Tidy .any scope) (hF : F.Whole)
    (hopen : s.function.Open) (a : Appends s s') (h : ∀ d, s.Placed F scope →
      HoldsStrings reads F scope s.storage lengths d → Quiet reads globals F s s' d R) :
    HoldsCode reads globals F scope lengths lengths s s' := by
  refine fun d hd => Leads.of_within fun hwithin => ?_
  have hp := hs.placed hopen hF (a.within hopen hwithin).function
  refine Leads.mono (h d hp hd) fun d' hd' => ?_
  rw [a.storage]
  exact hd.undisturbed hF hd'.1

theorem holds_assign (hs : s.Tidy .any scope) (hF : F.Whole) (hopen : s.function.Open)
    (ha : a.Copies reads lengths) (h : Runs (assign scope a) s u s') :
    HoldsCode reads globals F scope lengths (a.lengths lengths) s s' :=
  fun _ hd => Leads.of_within fun hwithin =>
    leads_assign hs (hs.placed hopen hF ((keeps_assign hopen h).1.within hwithin).function) hd ha h

theorem holds_arm {join? : Option Nat} {body : Lowering Unit} {rest : ElsePart} {truth : Value}
    {k : FunctionDraft.Fork}
    {left : Lengths}
    (h : ArmRun scope condition join? body (elsePart? scope rest) s s' truth s₁ s₂ s₃ k)
    (hF : F.Whole)
    (hs : s.Tidy .any scope) (hopen : s.function.Open) (hcondition : condition.Copies reads lengths)
    (hbody : HoldsCode reads globals F scope lengths left
      (s₁.moved (k.function.switchTo k.body) s₁.storage) s₂)
    (hrest : (elsePart? scope rest).isSome →
      HoldsRest reads globals F scope lengths (rest.lengths lengths) k.join (s₁.otherwise s₂ k) s₃)
    (hjoin : ∀ join, join? = some join → 0 < join ∧ join < s.function.blocks.size) :
    HoldsRest reads globals F scope lengths (left.join (rest.lengths lengths)) k.join s s' := by
  intro d hd
  have hstorage : s'.storage = s₃.storage.join s₂.storage := by rw [h.result]; rfl
  rw [hstorage]
  refine h.leadsTo (T := HoldsStrings reads F scope s₁.storage lengths) hjoin hF.named ?_ ?_ ?_ ?_
  · exact holds_quiet hs hF hopen h.condition.appends
      (fun _ hp hd => quiet_truthOf hp hd hcondition h.condition) d hd
  · exact fun d hd => (hbody d hd).mono fun _ hd' => hd'.join_theirs
  · exact fun hsome d hd => (hrest hsome d hd).mono fun _ hd' => hd'.join_ours
  · intro hnone d hd
    cases rest with
    | none =>
      rw [h.alone hnone]
      exact hd.join_ours
    | _ => simp [elsePart?] at hnone

/-! ### Loops -/

theorem holds_loop {kind : String} {body step : Lowering Unit} {truth : Value}
    {start between left : Lengths}
    (h : LoopRun scope kind body step condition s s' truth s₁ s₂ s₃) (hF : F.Whole)
    (hs₂ : s₂.Tidy .any scope) (hbody : HoldsCode reads globals F scope start between
      (s.moved (s.function.enter kind) (s.storage.forgetLengths scope)) s₁)
    (hstep : HoldsCode reads globals F scope between left s₁ s₂)
    (hcondition : condition.Copies reads left)
    (hfirst : ∀ x, lengths x ⊆ start x) (hagain : ∀ x, left x ⊆ start x) :
    HoldsCode reads globals F scope lengths left s s' := by
  intro d hd
  have a₃ := h.condition.appends
  have hstorage : s'.storage = s₃.storage := by rw [h.result]; rfl
  rw [hstorage]
  -- A turn: the body, the step, and the condition.
  have hturn : HoldsCode reads globals F scope start left
      (s.moved (s.function.enter kind) (s.storage.forgetLengths scope)) s₃ :=
    (hbody.trans h.stepKeeps.within hstep).trans (a₃.within h.stepOpen)
      (holds_quiet hs₂ hF h.stepOpen a₃ fun _ hp hd => quiet_truthOf hp hd hcondition h.condition)
  exact h.leads (T := HoldsStrings reads F scope (s.storage.forgetLengths scope) start) hF.named
    (hd.forget hfirst) (fun _ hd => hd.forget hagain) hturn

/-! ### Statements -/

theorem leads_leaveWith (hs : s.Tidy .any scope) (hF : F.Whole) (hopen : s.function.Open)
    (hd : HoldsStrings reads F scope s.storage lengths d) (he : e.Copies reads lengths)
    (h : Runs (leaveWith scope e) s u s') (Q : Memory → Prop) :
    Leads (copies reads globals) F globals s s' d Q := by
  obtain ⟨sub, value, s₁, -, hvalue, rfl⟩ := runs_leaveWith h
  exact Leads.returns (hvalue.appends.open hopen) (holds_quiet hs hF hopen hvalue.appends
    (fun _ hp hd => quiet_valueOf globals hp hd he hvalue) d hd)

/-- A subroutine that is declared leaves the strings of this scope alone. -/
theorem HoldsStrings.subroutine {name : String} {params : List Param} {body : List Stmt}
    (hd : HoldsStrings reads F scope s.storage lengths d) (hs : s.Tidy .any scope)
    (h : Runs (subroutine name params ty (block (.subroutine name) body)) s u s') :
    HoldsStrings reads F scope s'.storage lengths d := by
  refine hd.weaken (fun x slot n hslot hlength => ⟨slot, ?_, rfl, hlength⟩)
    fun _ => List.Subset.refl _
  rw [← hs.storage_subroutine x h]
  exact hslot

theorem copies_counterTest {bound test : Expr} (hinit : init.ty.isNumeric)
    (hbound : bound.Agrees env scope)
    (hboundTy : bound.ty.isNumeric) (h : Runs (counterTest init bound) s test s') :
    test.Copies reads lengths ∧ s' = s := by
  obtain ⟨⟨ty, hty, rfl⟩, rfl⟩ := runs_counterTest h
  refine ⟨⟨trivial, bound.copies_of_numeric hbound (Ty.ne_string_of_isNumeric hboundTy), ?_⟩, rfl⟩
  rintro rfl
  cases hi : init.ty <;> cases hb : bound.ty <;>
    simp [hi, hb, Ty.isNumeric, Ty.promote?] at hinit hboundTy hty

/-- **Behind a statement strings are where they should be.** -/
theorem holds_walk (reads : Prop) (globals : List Global) (hF : F.Whole) : Walk
    (fun scope st s s' => ∀ env lengths, st.Agrees env scope → (reads → st.fits lengths) →
      s.Tidy .any scope → HoldsCode reads globals F scope lengths (st.lengths lengths) s s')
    (fun scope body s s' => ∀ env lengths, allAgree env scope body →
      (reads → fitsAll lengths body) →
      s.Tidy .any scope → HoldsCode reads globals F scope lengths (lengthsAll lengths body) s s')
    fun scope part join s s' => ∀ env lengths, part.Agrees env scope → (reads → part.fits lengths) →
      s.Tidy .any scope → 0 < join ∧ join < s.function.blocks.size →
        HoldsRest reads globals F scope lengths (part.lengths lengths) join s s' where
  logged _ h env lengths hagrees hfits hs :=
    h env lengths hagrees hfits (hs.of_same (hs.sound.logged _) hs.slots rfl (.refl _))
  expr hopen h env lengths hagrees hfits hs :=
    holds_quiet hs hF hopen h.appends fun d hp hd => operand_careful reads F globals _ lengths _
      (Expr.copies_of_agrees _ hagrees.1 (Nat.zero_le _) hfits).1 _ _ _ d hp hd h
  assign hopen h env lengths hagrees hfits hs :=
    holds_assign hs hF hopen (Assignment.copies_of_agrees hagrees hfits) h
  array hopen h env lengths hagrees hfits hs d hd := Leads.of_within fun hwithin =>
    leads_declareArray
      (hs.placed hopen hF (((straight_declareArray h).keeps hopen).1.within hwithin).function) hd
      (Expr.copies_of_numeric _ hagrees.1 (Ty.ne_string_of_isNumeric hagrees.2.1)) h
  output hopen h env lengths hagrees hfits hs :=
    holds_quiet hs hF hopen h.appends fun _ hp hd =>
      quiet_output hp hd (Expr.copies_of_agrees _ hagrees.1 (Nat.zero_le _) hfits).1 h
  input := by
    intro scope target ty s s' hopen h env lengths hagrees hfits hs d hd
    have a := h.appends
    refine Leads.of_within fun hwithin => ?_
    rw [a.storage]
    refine leads_input (hs.placed hopen hF (a.within hopen hwithin).function) hd ?_ h
    rintro name index ty' rfl
    exact index.copies_of_numeric hagrees.1.2.1 (Ty.ne_string_of_isNumeric hagrees.1.2.2.1)
  ifThen := by
    intro scope condition body rest s s' truth s₁ s₂ s₃ k hopen harm hbody hrest env lengths hagrees
      hfits hs d hd
    obtain ⟨hcondition, hconditionTy, hagreeBody, hagreeRest⟩ := hagrees
    have hboth : reads → fitsAll lengths body ∧ rest.fits lengths :=
      fun hreads => by simpa [Stmt.fits] using hfits hreads
    have hsBody := hs.armBody harm
    have hs₂ := block_tidy_any hagreeBody hsBody harm.open_then harm.body
    refine harm.leads (holds_arm harm hF hs hopen
      (condition.copies_of_numeric hcondition (Ty.ne_string_of_isNumeric hconditionTy))
      (hbody env lengths hagreeBody (fun hreads => (hboth hreads).1) hsBody) (fun hsome => ?_)
      (by simp) d hd)
    exact hrest hsome _ lengths hagreeRest (fun hreads => (hboth hreads).2)
      (hs.armOtherwise harm hs₂ hsome) (harm.target_otherwise (by simp))
  whileLoop := by
    intro scope condition body s s' truth s₁ s₃ hloop hbody env lengths hagrees hfits hs
    obtain ⟨hcondition, hconditionTy, hagreeBody⟩ := hagrees
    have hs₀ := hs.loopBody "while"
    exact holds_loop hloop hF (block_tidy_any hagreeBody hs₀ hloop.open_body hloop.body)
      (hbody env _ hagreeBody hfits hs₀) (fun d hd => Leads.refl hd)
      (condition.copies_of_numeric hcondition (Ty.ne_string_of_isNumeric hconditionTy))
      (fun x => List.subset_append_left _ _)
      (Lengths.subset_around (fun hw => lengthsAll_within body hw) lengths)
  forLoop := by
    intro scope init bound test body s s₀ s' truth s₁ s₂ s₃ hopen hinit htest hloop hbody env
      lengths hagrees hfits hs
    obtain ⟨hagreeInit, -, hinitTy, hbound, hboundTy, hagreeBody⟩ := hagrees
    have hs₀ := (hs.assign hinit).loopBody "for"
    have hs₁ := block_tidy_any hagreeBody hs₀ hloop.open_body hloop.body
    have hcopiesInit : init.Copies reads lengths :=
      Assignment.copies_of_agrees hagreeInit fun _ => Assignment.fits_of_numeric lengths
        hagreeInit hinitTy
    refine (holds_assign hs hF hopen hcopiesInit hinit).trans hloop.keeps.within ?_
    exact holds_loop hloop hF (hs₁.assign hloop.step) (hbody _ _ hagreeBody hfits hs₀)
      (holds_assign hs₁ hF hloop.bodyOpen (Assignment.copies_counterStep reads _ hinitTy)
        hloop.step)
      (copies_counterTest hinitTy hbound hboundTy htest).1 (fun x => List.subset_append_left _ _)
      (Lengths.subset_around
        (fun hw => (counterStep init).lengths_within (lengthsAll_within body hw)) _)
  subroutine := by
    intro scope name params body ty s s' hopen h _ env lengths hagrees hfits hs d hd
    obtain ⟨-, hfunction⟩ := keeps_subroutine scope (block_keeps (.subroutine name) body) h
    exact Leads.still (by rw [hfunction]) (by rw [hfunction]) (hd.subroutine hs h)
  ret := by
    intro scope e s s' hopen h env lengths hagrees hfits hs d hd
    obtain ⟨he, -⟩ := e.copies_of_agrees hagrees.2.1 (Nat.zero_le _) hfits
    exact leads_leaveWith hs hF hopen hd he h _
  nil _ _ _ _ _ _ hd := Leads.refl hd
  cons := by
    intro scope st rest s s₁ s' hopen hone k₁ o₁ hrest k₂ h₁ h₂ env lengths hagree hfits hs
    have hboth : reads → st.fits lengths ∧ fitsAll (st.lengths lengths) rest :=
      fun hreads => by simpa [fitsAll] using hfits hreads
    have hs₁ := statement_tidy env scope st hagree.1 (fun r _ => goodRoutine_any r.1 r.2) hs
      hopen hone
    exact (h₁ env lengths hagree.1 (fun hreads => (hboth hreads).1) hs).trans k₂.within
      (h₂ _ _ hagree.2 (fun hreads => (hboth hreads).2) hs₁)
  body _ _ k₁ o₁ hbody env lengths hagrees hfits hs hjoin d hd :=
    (hbody env lengths hagrees hfits hs d hd).fallTo hF.named k₁ o₁ hjoin
  elseIf := by
    rintro scope condition body rest _ s s' truth s₁ s₂ s₃ k hopen rfl harm hbody hrest env lengths
      hagrees hfits hs hjoin
    obtain ⟨hcondition, hconditionTy, hagreeBody, hagreeRest⟩ := hagrees
    have hboth : reads → fitsAll lengths body ∧ rest.fits lengths :=
      fun hreads => by simpa [ElsePart.fits] using hfits hreads
    have hsBody := hs.armBody harm
    have hs₂ := block_tidy_any hagreeBody hsBody harm.open_then harm.body
    have hgiven : ∀ join, some k.join = some join → 0 < join ∧ join < s.function.blocks.size := by
      rintro _ ⟨⟩
      exact hjoin
    refine holds_arm harm hF hs hopen
      (condition.copies_of_numeric hcondition (Ty.ne_string_of_isNumeric hconditionTy))
      (hbody env lengths hagreeBody (fun hreads => (hboth hreads).1) hsBody)
      (fun hsome => ?_) hgiven
    exact hrest hsome _ lengths hagreeRest (fun hreads => (hboth hreads).2)
      (hs.armOtherwise harm hs₂ hsome) (harm.target_otherwise hgiven)

end Lower

end Pseudocode
