import Pseudocode.Proofs.Memory.Expressions

/-!
Copies in the code of an assignment.

A string is copied into the buffer of its variable.  There is room for it, whether the buffer is
known to have the right size, is resized, or is new.  What is copied is found before the buffer is
resized.  It is still there afterwards unless it is what the buffer held, and that is only so if the
variable is assigned to itself (`Buffered.foreign`).
-/

namespace Pseudocode.Lower

open Ir

variable {reads : Prop} {globals : List Global} {F : FunctionDraft} {scope : Scope}
  {lengths : Lengths}
  {storage storage' : Storage} {s s₁ s₂ s' : State} {d d₁ d' : Memory} {v : Value} {x name : String}
  {n : Nat} {old : Content} {slot : Slot} {ty ty' : Ir.Ty}

/-! ### Replacing a buffer -/

/-- What is known where a variable has got a buffer of a size: there is room, values that were known
are still the same, and what can be copied from elsewhere can still be copied. -/
structure Buffered (reads : Prop) (F : FunctionDraft) (globals : List Global) (scope : Scope)
    (storage : Storage)
    (lengths : Lengths) (x : String) (n : Nat) (s : State) (v : Value) (d d' : Memory) : Prop where
  holds : HoldsStrings reads F scope storage (lengths.assign x [n]) d'
  room : Room n v d'
  values : ∀ w : Value, w.Known s.function.visible → d'.eval w = d.eval w
  foreign : ∀ c m, Foreign F d x c → Copyable globals d c m → Copyable globals d' c m

theorem Buffered.of_undisturbed (h : Buffered reads F globals scope storage lengths x n s₁ v d₁ d')
    (hsees : Sees s s₁) (hd : Undisturbed s d d₁) :
    Buffered reads F globals scope storage lengths x n s v d d' := by
  refine ⟨h.holds, h.room, ?_, ?_⟩
  · intro w hw
    rw [h.values w (hw.mono hsees), hd.values w hw]
  · intro c m hforeign hcopy
    exact h.foreign c m (hforeign.undisturbed hd) (hcopy.undisturbed hd)

/-- A new block is stored in the slot of a variable. -/
theorem buffered_rebuffer (hs : s.Placed F scope)
    (hd : HoldsStrings reads F scope storage lengths d)
    (hname : F.Buffer name) (hx : Draft.SlotOf x name)
    (hold : ∀ b offset, old = .block b offset → d.slots name = .block b 0)
    (hlength : slot.length = some n) (haddress : slot.address = .register name ty) :
    Buffered reads F globals scope (storage.insert ⟨x, scope⟩ slot) lengths x n s
    (.register s.next ty') d
      (d.rebuffer old n s.next name) := by
  have horderly := hd.orderly.rebuffer hs.whole hname hold s.function.nextTemp n
  refine ⟨?_, ?_, ?_, ?_⟩
  · refine hd.rebuffer hs.whole hname hx (fun y hy => getElem?_insert_other storage hy slot)
      ?_ hold _
    intro found hfound
    rw [getElem?_insert_this storage x slot found hfound]
    exact ⟨hlength, ty, haddress⟩
  · exact ⟨d.sizes.length, if_pos rfl, d.getElem?_rebuffer old n _ name,
      (horderly.held hname (if_pos rfl)).2⟩
  · intro w hw
    cases w with
    | register r t => exact if_neg (Undisturbed.ne_next hs.sound hw)
    | _ => rfl
  · intro c m hforeign hcopy
    exact hcopy.rebuffer hforeign hname hx hold n _

theorem step_store_block {dest : String} (hname : d.registers name = .slot name)
    (hne : name ≠ dest) :
    (((d.release old).allocate (.number n)).set dest (.block d.sizes.length 0)).step
      (.store (.register dest ty) (.register name ty')) = d.rebuffer old n dest name := by
  have hptr : (((d.release old).allocate (.number n)).set dest (.block d.sizes.length 0)).registers
    name =
      .slot name := by
    refine (if_neg hne).trans ?_
    cases old <;> exact hname
  have hvalue :
    (((d.release old).allocate (.number n)).set dest (.block d.sizes.length 0)).registers dest =
      .block d.sizes.length 0 := if_pos rfl
  rw [Memory.step, Memory.exec, Memory.eval, Memory.eval, hptr, hvalue]
  cases old <;> simp [Memory.rebuffer, Memory.write, Memory.setSlot, Memory.set, Memory.allocate,
    Memory.release, Content.copied, Content.size?, Instr.record, Instr.storesTo?]

theorem step_realloc {old size : Value} {dest : String} {signature : Signature} :
    d.step (.call (some dest) "realloc" signature [old, size]) =
      ((d.release (d.eval old)).allocate (d.eval size)).set dest (.block d.sizes.length 0) := by
  show { ((d.release (d.eval old)).allocate (d.eval size)).set dest (.block d.sizes.length 0) with
    stored := d.stored } = _
  cases d.eval old <;> rfl

/-- What is loaded from a slot for a string points to the block that the slot holds, if to any. -/
theorem readFrom_eq_block {c : Content} {b : Nat} {offset : Int}
    (h : c.readFrom name = .block b offset) : c = .block b offset := by
  cases c <;> simp [Content.readFrom, Content.copied] at h ⊢
  exact h

/-- A block is allocated for a variable and stored in its slot. -/
theorem leads_stored {call : Instr} (hs : s.Placed F scope)
    (hd : HoldsStrings reads F scope s.storage lengths d) (hname : F.Buffer name)
    (hx : Draft.SlotOf x name)
    (hold : ∀ b offset, old = .block b offset → d.slots name = .block b 0)
    (hlength : slot.length = some n) (haddress : slot.address = .register name ty)
    (hne : ∀ dest? signature args, call ≠ .call dest? "memcpy" signature args)
    (hcall : d.step call = ((d.release old).allocate (.number n)).set s.next
      (.block d.sizes.length 0)) :
    Leads (copies reads globals) F globals s
      ((s.emit [call, .store (.register s.next ty') (.register name ty)]).withSlot ⟨x, scope⟩ slot)
      d
      (Buffered reads F globals scope (s.storage.insert ⟨x, scope⟩ slot) lengths x n s
        (.register s.next ty') d) := by
  intro hwithin
  refine Leads.emit hs.opened ⟨copies_ok hne d, fun _ => ⟨copies_ok (by simp) _, fun _ => ?_⟩⟩
    ⟨hwithin.function, hwithin.globals⟩
  have hregister := hd.orderly.addresses name .bytes hname
  have hnext : name ≠ s.next := by
    rintro rfl
    exact Draft.dot_notMem_tempName _ hx.dotted
  show Buffered reads F globals scope _ lengths x n s _ d
    ((d.step call).step (.store (.register s.next ty') (.register name ty)))
  rw [hcall, step_store_block hregister hnext]
  exact buffered_rebuffer hs hd hname hx hold hlength haddress

/-- A buffer is resized. -/
theorem leads_resized {old size : Value} {s₃ s₄ : State} {u : Unit} (hs : s.Placed F scope)
    (hd : HoldsStrings reads F scope s.storage lengths d)
    (hslot : s.storage[(⟨x, scope⟩ : Symbol)]? = some slot) (hkind : slot.kind = .scalar .string)
    (hload : Runs (load slot.address) s old s₁) (hsize : Runs (byteCount n) s₁ size s₂)
    (hrealloc : Runs (realloc old size) s₂ v s₃) (hstore : Runs (store v slot.address) s₃ u s₄) :
    Leads (copies reads globals) F globals s
    (s₄.withSlot ⟨x, scope⟩ { slot with length := some n }) d
      (Buffered reads F globals scope (s₄.storage.insert ⟨x, scope⟩ { slot with length := some n })
        lengths x n s v d) := by
  obtain ⟨name, hplaced⟩ := hs.stringSlot hslot hkind
  have hname : F.Buffer name := hplaced.reserved
  obtain ⟨_, _, _, haddress⟩ := hs.sound.slot hslot
  obtain ⟨hs₁, hold, -⟩ := hs.sound.load haddress hload
  have a₁ := hload.appends
  have a₂ := hsize.appends
  have hp₁ := hs.of_appends a₁ hs₁
  have hp₂ := hp₁.of_appends a₂ (hs₁.byteCount hsize).1
  have q₂ : Quiet reads globals F s s₂ d fun d₂ =>
      d₂.eval old = (d.slots name).readFrom name ∧ d₂.eval size = .number n := by
    refine (quiet_load hs hload d).trans hs a₁ a₂ fun d₁ _ hloaded => ?_
    refine (quiet_byteCount hp₁ hsize d₁).mono fun d₂ hd₂ hnumber => ⟨?_, hnumber⟩
    rw [hd₂.values old hold, hloaded.1, hplaced.address]
    show d.read (d.registers name) = _
    rw [hd.orderly.addresses name .bytes hname]
    rfl
  obtain ⟨-, rfl, rfl⟩ := runs_call.1 (runs_get_bind.1 hrealloc)
  obtain ⟨-, rfl⟩ := runs_store.1 hstore
  rw [State.emit_emit]
  refine Leads.trans q₂ (fun hwithin => ?_) ?_
  · exact (Appends.emit s₂ _).within hp₂.opened ⟨hwithin.function, hwithin.globals⟩
  · rintro d₂ ⟨hd₂, hvalue, hnumber⟩
    have hholds : HoldsStrings reads F scope s₂.storage lengths d₂ := by
      rw [(a₁.trans a₂).storage]
      exact hd.undisturbed hs.whole hd₂
    have hblock : ∀ b offset, d₂.eval old = .block b offset → d₂.slots name = .block b 0 := by
      intro b offset hb
      rw [hvalue] at hb
      have hheld := readFrom_eq_block hb
      rw [hd₂.slots]
      rcases hd.orderly.live name hname with ⟨slot?, hnowhere⟩ | ⟨b', hb', -⟩
      · rw [hheld] at hnowhere
        simp at hnowhere
      · rw [hb', Content.block.injEq] at hheld
        rw [hb', hheld.1]
    rw [hplaced.address]
    refine Leads.mono (leads_stored hp₂ hholds hname hplaced.slotOf hblock rfl rfl (by simp) ?_)
      fun d' hbuffered => hbuffered.of_undisturbed (hs.sound.sees (a₁.trans a₂)) hd₂
    rw [step_realloc, hnumber]

/-- A variable gets its first buffer, in a new slot. -/
theorem leads_fresh {size : Value} {s₃ s₄ : State} {u u' : Unit} (hs : s.Placed F scope)
    (hd : HoldsStrings reads F scope s.storage lengths d)
    (hfirst : Runs (storeFirst (.null .bytes) (.register (s.slotName ⟨x, scope⟩) (.ptr .bytes)))
      (s.reserved ⟨x, scope⟩ .bytes) u s₁) (hsize : Runs (byteCount n) s₁ size s₂)
    (hmalloc : Runs (malloc size) s₂ v s₃)
    (hstore : Runs (store v (.register (s.slotName ⟨x, scope⟩) (.ptr .bytes))) s₃ u' s₄) :
    Leads (copies reads globals) F globals s
      (s₄.withSlot ⟨x, scope⟩
        { address := .register (s.slotName ⟨x, scope⟩) (.ptr .bytes), kind := .scalar .string,
          length := some n }) d
      (Buffered reads F globals scope (s₄.storage.insert ⟨x, scope⟩
        { address := .register (s.slotName ⟨x, scope⟩) (.ptr .bytes), kind := .scalar .string,
          length := some n })
        lengths x n s v d) := by
  refine Leads.of_within fun hwithin => ?_
  have hx : Draft.SlotOf x (s.slotName ⟨x, scope⟩) := Draft.slotOf_freshName _ _
  obtain ⟨hs₀, hsees₀, hmem⟩ := hs.sound.reserved ⟨x, scope⟩ .bytes
  obtain ⟨hs₁, hsees₁⟩ := hs₀.storeFirst hmem hfirst
  obtain ⟨-, hs₁eq⟩ := runs_storeFirst.1 hfirst
  have hmem₁ : .alloca (s.slotName ⟨x, scope⟩) .bytes ∈ s₁.function.prologue.toList := by
    rw [hs₁eq]
    exact (FunctionDraft.extends_setup _ _ s.function.taken).prologue.subset hmem
  -- Reserving the slot adds nothing to the current block.
  have hreserved : Leads (copies reads globals) F globals s s₁ d fun d₁ => d₁ = d :=
    Leads.still (by rw [hs₁eq]; rfl) (by rw [hs₁eq]; rfl) rfl
  have hstorage : s₁.storage = s.storage := by rw [hs₁eq]; rfl
  have hopen₁ : s₁.function.Open := by
    rw [hs₁eq]
    exact hs.opened
  have hp₁ : s₁.Placed F scope :=
    ⟨hs.whole, hs₁, hopen₁, by rw [hstorage]; exact hs.slots, by rw [hs₁eq]; exact hs.subroutines⟩
  have a₂ := hsize.appends
  have hp₂ := hp₁.of_appends a₂ (hs₁.byteCount hsize).1
  obtain ⟨-, rfl, rfl⟩ := runs_call.1 (runs_get_bind.1 hmalloc)
  obtain ⟨-, rfl⟩ := runs_store.1 hstore
  rw [State.emit_emit] at hwithin ⊢
  have hwithin₂ : s₂.Within F globals :=
    (Appends.emit s₂ _).within hp₂.opened ⟨hwithin.function, hwithin.globals⟩
  have hwithin₁ := a₂.within hopen₁ hwithin₂
  have hname : F.Buffer (s.slotName ⟨x, scope⟩) := hwithin₁.function.prologue.subset hmem₁
  refine hreserved.trans (fun _ => hwithin₁) ?_
  rintro d₁ rfl
  refine Leads.trans (quiet_byteCount hp₁ hsize d₁) (fun _ => hwithin₂) ?_
  rintro d₂ ⟨hd₂, hnumber⟩
  have hholds : HoldsStrings reads F scope s₂.storage lengths d₂ := by
    rw [a₂.storage, hstorage]
    exact hd.undisturbed hs.whole hd₂
  have hnone : ∀ b offset, Content.unknown = .block b offset →
    d₂.slots (s.slotName ⟨x, scope⟩) = .block b 0 := by
    simp
  refine Leads.mono (leads_stored hp₂ hholds hname hx hnone rfl rfl (by simp) ?_)
    fun d' hbuffered => (hbuffered.of_undisturbed (hs₁.sees a₂) hd₂).of_undisturbed
      (hsees₀.trans hsees₁) (Undisturbed.refl s d₁)
  show (d₂.allocate (d₂.eval size)).set _ _ = _
  rw [hnumber]
  rfl

theorem leads_known (hs : s.Placed F scope) (hd : HoldsStrings reads F scope s.storage lengths d)
    (hslot : s.storage[(⟨x, scope⟩ : Symbol)]? = some slot) (hkind : slot.kind = .scalar .string)
    (hlength : slot.length = some n) (hload : Runs (load slot.address) s v s') :
    Leads (copies reads globals) F globals s s' d
      (Buffered reads F globals scope s'.storage lengths x n s v d) := by
  obtain ⟨name, hplaced⟩ := hs.stringSlot hslot hkind
  have hname : F.Buffer name := hplaced.reserved
  obtain ⟨b, hb, hsize⟩ := hd.known x slot n name hslot hlength hplaced.address hname hplaced.slotOf
  have a := hload.appends
  refine Leads.mono (quiet_load hs hload d) fun d' hd' => ?_
  obtain ⟨hd', heval, hlast⟩ := hd'
  rw [hplaced.address] at heval hlast
  have hread : d'.eval v = .block b 0 := by
    rw [heval]
    show d.read (d.registers name) = _
    rw [hd.orderly.addresses name .bytes hname]
    show (d.slots name).readFrom name = _
    rw [hb]
    rfl
  refine ⟨?_, ⟨b, hread, getElem?_sizes hd'.sizes hsize, ?_⟩, hd'.values,
    fun c m _ hcopy => hcopy.undisturbed hd'⟩
  · rw [a.storage]
    refine HoldsStrings.undisturbed hs.whole
      ⟨hd.orderly, hd.known, fun hreads y other hother hstored => ?_⟩ hd'
    -- The buffer that has been stored last is the one that is loaded.
    by_cases hy : y = x
    · rw [hy] at hstored ⊢
      have hsame := hlast hreads name x rfl hplaced.slotOf other hstored
      rw [hsame]
      exact ⟨b, n, hb, hsize, by simp [Lengths.assign]⟩
    · obtain ⟨b', m, hb', hsize', hm⟩ := hd.last hreads y other hother hstored
      refine ⟨b', m, hb', hsize', ?_⟩
      rw [Lengths.assign, if_neg hy]
      exact hm
  · rw [hd'.freed]
    exact (hd.orderly.held hname hb).2

/-- **There is room for a string in the buffer of its variable.** -/
theorem leads_stringBuffer (hs : s.Placed F scope)
    (hd : HoldsStrings reads F scope s.storage lengths d)
    (h : Runs (stringBuffer ⟨x, scope⟩ n) s v s') :
    Leads (copies reads globals) F globals s s' d
      (Buffered reads F globals scope s'.storage lengths x n s v d) := by
  rcases runs_stringBuffer h with ⟨slot, hslot, hkind, hlength, hload⟩ |
    ⟨slot, old, size, s₁, s₂, s₃, s₄, hslot, hkind, hload, hsize, hrealloc, hstore, rfl⟩ |
    ⟨-, size, s₁, s₂, s₃, s₄, hfirst, hsize, hmalloc, hstore, rfl⟩
  · exact leads_known hs hd hslot hkind hlength hload
  · exact leads_resized hs hd hslot hkind hload hsize hrealloc hstore
  · exact leads_fresh hs hd hfirst hsize hmalloc hstore

end Pseudocode.Lower
