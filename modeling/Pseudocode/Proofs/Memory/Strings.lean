import Pseudocode.Proofs.Lower.Paths
import Pseudocode.Proofs.Memory.Heap
import Pseudocode.Proofs.Memory.Lengths

/-!
Where the strings of a scope are.

A slot for a string holds the address of a block, or points nowhere as long as nothing has been
stored to it.  No two slots hold the same block, and a block that is held has not been given up: it
is given up only by resizing the buffer of the variable that holds it, and then the variable is
given the new block at once (`Memory.Orderly`).

Code generation remembers the sizes of buffers where it can (`Slot.length`), and what it remembers
is right (`HoldsStrings.known`).  Besides, it is taken down which sizes the assignments to a
variable may have left (`HoldsStrings.last`).  That is no more than what the program says, and it is
right on paths whose loads find what has been stored last.

Code for an expression puts its results into new registers and allocates new blocks.  It disturbs
nothing else (`Undisturbed`).
-/

namespace Pseudocode

variable {c old : Content} {b n : Nat} {globals : List Global}

namespace Ir

/-- Is it the name of a slot for a string? -/
def FunctionDraft.Buffer (F : FunctionDraft) (name : String) : Prop :=
  .alloca name .bytes ∈ F.prologue.toList

/-- A slot for something else is not one for a string. -/
theorem FunctionDraft.Whole.not_buffer {F : FunctionDraft} (hF : F.Whole) {name : String} {ty : Ty}
    (h : .alloca name ty ∈ F.prologue.toList) (hty : ty ≠ .bytes) : ¬ F.Buffer name := by
  intro hbuffer
  obtain ⟨i, hi⟩ := List.mem_iff_getElem?.mp h
  obtain ⟨j, hj⟩ := List.mem_iff_getElem?.mp hbuffer
  rw [Array.getElem?_toList] at hi hj
  have hsame := hF.named.slots i j name ty .bytes hi hj
  rw [hsame, hj, Option.some.injEq, Instr.alloca.injEq] at hi
  exact hty hi.2.symm

/-- Memory in which slots are where they should be. -/
structure Memory.Orderly (F : FunctionDraft) (d : Memory) : Prop where
  addresses : ∀ name ty, .alloca name ty ∈ F.prologue.toList → d.registers name = .slot name
  /-- No counted register holds the address of a slot. -/
  temps : ∀ k name, d.registers (Draft.tempName k) ≠ .slot name
  live : ∀ name, F.Buffer name → (∃ slot?, d.slots name = .nowhere slot?) ∨
    ∃ b, d.slots name = .block b 0 ∧ b < d.sizes.length ∧ b ∉ d.freed
  apart : ∀ name name' b, F.Buffer name → F.Buffer name' → d.slots name = .block b 0 →
    d.slots name' = .block b 0 → name = name'
  freed : ∀ b ∈ d.freed, b < d.sizes.length
  /-- A variable that has not been assigned points nowhere. -/
  never : ∀ x name, F.Buffer name → Draft.SlotOf x name →
    (∀ other ∈ d.stored, ¬ Draft.SlotOf x other) → ∃ slot?, d.slots name = .nowhere slot?

namespace Memory

/-- Gives a slot a new block of a size in place of the one at `old`.  The address of the new block
is put into a register, too. -/
def rebuffer (d : Memory) (old : Content) (size : Nat) (dest name : String) : Memory where
  registers r := if r = dest then .block d.sizes.length 0 else d.registers r
  slots other := if other = name then .block d.sizes.length 0 else d.slots other
  sizes := d.sizes ++ [some size]
  freed := (d.release old).freed
  stored := name :: d.stored

/-- No address of a slot is read from memory. -/
theorem read_ne_slot (d : Memory) (ptr : Content) (name : String) : d.read ptr ≠ .slot name := by
  cases ptr with
  | slot other =>
    show (d.slots other).readFrom other ≠ .slot name
    cases d.slots other <;> simp [Content.readFrom, Content.copied]
  | _ => simp [read]

theorem mem_freed_release {d : Memory} (h : b ∈ (d.release c).freed) :
    b ∈ d.freed ∨ ∃ offset, c = .block b offset := by
  cases c with
  | block b' offset =>
    rcases List.mem_cons.mp h with rfl | h
    · exact Or.inr ⟨offset, rfl⟩
    · exact Or.inl h
  | _ => exact Or.inl h

theorem getElem?_rebuffer (d : Memory) (old : Content) (size : Nat) (dest name : String) :
    (d.rebuffer old size dest name).sizes[d.sizes.length]? = some (some size) := by
  simp [rebuffer]

end Memory

namespace Memory.Orderly

variable {F : FunctionDraft} {d : Memory} {name : String}

/-- What a slot holds has been allocated and has not been given up. -/
theorem held (h : d.Orderly F) (hname : F.Buffer name) (hb : d.slots name = .block b 0) :
    b < d.sizes.length ∧ b ∉ d.freed := by
  rcases h.live name hname with ⟨slot?, hnull⟩ | ⟨b', hb', hlt, hfreed⟩
  · rw [hb] at hnull
    simp at hnull
  · rw [hb, Content.block.injEq] at hb'
    rw [hb'.1]
    exact ⟨hlt, hfreed⟩

/-- Slots stay in order if those for strings hold what they held. -/
theorem of_buffers {d' : Memory} (h : d.Orderly F) (hregisters : d'.registers = d.registers)
    (hslots : ∀ other, F.Buffer other → d'.slots other = d.slots other)
    (hsizes : d'.sizes = d.sizes)
    (hfreed : d'.freed = d.freed) (hstored : d.stored ⊆ d'.stored) : d'.Orderly F := by
  refine ⟨by rw [hregisters]; exact h.addresses, by rw [hregisters]; exact h.temps, ?_, ?_, ?_, ?_⟩
  · intro other hother
    rw [hslots other hother, hsizes, hfreed]
    exact h.live other hother
  · intro n n' b hn hn' hb hb'
    exact h.apart n n' b hn hn' ((hslots n hn).symm.trans hb) ((hslots n' hn').symm.trans hb')
  · rw [hfreed, hsizes]
    exact h.freed
  · intro y other hother hslotOf hnever
    rw [hslots other hother]
    exact h.never y other hother hslotOf fun r hr => hnever r (hstored hr)

/-- Slots stay in order if the buffer of one is replaced by a new block.  If a block is given up, it
is the one that this slot held. -/
theorem rebuffer (h : d.Orderly F) (hF : F.Whole) (hname : F.Buffer name)
    (hold : ∀ b offset, old = .block b offset → d.slots name = .block b 0) (k size : Nat) :
    (d.rebuffer old size (Draft.tempName k) name).Orderly F := by
  have hgone : ∀ b ∈ (d.release old).freed, b < d.sizes.length := by
    intro b hb
    rcases mem_freed_release hb with hb | ⟨offset, hblock⟩
    · exact h.freed b hb
    · exact (h.held hname (hold b offset hblock)).1
  have hlength :
    (d.rebuffer old size (Draft.tempName k) name).sizes.length = d.sizes.length + 1 := by
    simp [Memory.rebuffer]
  -- A block that a slot holds afterwards is the new one in this slot, or one that the slot held
  -- before.
  have hblock : ∀ other b, (d.rebuffer old size (Draft.tempName k) name).slots other = .block b 0 →
      (other = name ∧ b = d.sizes.length) ∨ d.slots other = .block b 0 := by
    intro other b hb
    by_cases heq : other = name
    · have hthis : Content.block d.sizes.length 0 = .block b 0 := (if_pos heq).symm.trans hb
      rw [Content.block.injEq] at hthis
      exact Or.inl ⟨heq, hthis.1.symm⟩
    · exact Or.inr ((if_neg heq).symm.trans hb)
  refine ⟨?_, ?_, ?_, ?_, ?_, ?_⟩
  · intro other ty hother
    refine (if_neg ?_).trans (h.addresses other ty hother)
    rintro rfl
    exact Draft.dot_notMem_tempName k (hF.dotted _ ty hother)
  · intro j other
    show (if Draft.tempName j = Draft.tempName k then Content.block d.sizes.length 0
      else d.registers (Draft.tempName j)) ≠ .slot other
    split
    · simp
    · exact h.temps j other
  · intro other hother
    by_cases heq : other = name
    · refine Or.inr ⟨d.sizes.length, if_pos heq, by omega, fun hb => ?_⟩
      exact absurd (hgone _ hb) (Nat.lt_irrefl _)
    · have hsame : (d.rebuffer old size (Draft.tempName k) name).slots other = d.slots other :=
        if_neg heq
      rw [hsame]
      refine (h.live other hother).imp_right ?_
      rintro ⟨b, hb, hlt, hfreed⟩
      refine ⟨b, hb, by omega, fun hmem => ?_⟩
      rcases mem_freed_release hmem with hmem | ⟨offset, hgiven⟩
      · exact hfreed hmem
      · exact heq (h.apart other name b hother hname hb (hold b offset hgiven))
  · intro n₁ n₂ b h₁ h₂ hb₁ hb₂
    rcases hblock n₁ b hb₁ with ⟨hn₁, hb⟩ | hd₁
    · rcases hblock n₂ b hb₂ with ⟨hn₂, -⟩ | hd₂
      · rw [hn₁, hn₂]
      · exact absurd (h.held h₂ hd₂).1 (by omega)
    · rcases hblock n₂ b hb₂ with ⟨-, hb⟩ | hd₂
      · exact absurd (h.held h₁ hd₁).1 (by omega)
      · exact h.apart n₁ n₂ b h₁ h₂ hd₁ hd₂
  · intro b hb
    have hlt := hgone b hb
    omega
  · intro y other hother hslotOf hnever
    have hne : other ≠ name := by
      rintro rfl
      exact hnever other List.mem_cons_self hslotOf
    obtain ⟨slot?, hnull⟩ :=
      h.never y other hother hslotOf fun r hr => hnever r (List.mem_cons_of_mem _ hr)
    exact ⟨slot?, (if_neg hne).trans hnull⟩

end Memory.Orderly

theorem getElem?_sizes {d d' : Memory} (h : d.sizes <+: d'.sizes) {size : Option Nat}
    (hb : d.sizes[b]? = some size) : d'.sizes[b]? = some size := by
  obtain ⟨more, hmore⟩ := h
  rw [← hmore, List.getElem?_append_left (List.getElem?_eq_some_iff.mp hb).1]
  exact hb

end Ir

namespace Lower

open Ir

/-! ### Expressions disturb nothing -/

/-- The second memory is the first but for registers that are not visible yet, and for new
blocks. -/
structure Undisturbed (s : State) (d d' : Memory) : Prop where
  values : ∀ v : Value, v.Known s.function.visible → d'.eval v = d.eval v
  dotted : ∀ name : String, '.' ∈ name.toList → d'.registers name = d.registers name
  temps : (∀ k name, d.registers (Draft.tempName k) ≠ .slot name) → ∀ k name,
    d'.registers (Draft.tempName k) ≠ .slot name
  slots : d'.slots = d.slots
  sizes : d.sizes <+: d'.sizes
  freed : d'.freed = d.freed
  stored : d'.stored = d.stored

namespace Undisturbed

variable {scope : Scope} {s s₁ : State} {d d₁ d' : Memory}

theorem refl (s : State) (d : Memory) : Undisturbed s d d :=
  ⟨fun _ _ => rfl, fun _ _ => rfl, fun h => h, rfl, List.prefix_refl _, rfl, rfl⟩

theorem trans (h₁ : Undisturbed s d d₁) (hs : s.Sound scope) (happends : Appends s s₁)
    (h₂ : Undisturbed s₁ d₁ d') : Undisturbed s d d' := by
  refine ⟨?_, ?_, fun h => h₂.temps (h₁.temps h), h₂.slots.trans h₁.slots, h₁.sizes.trans h₂.sizes,
    h₂.freed.trans h₁.freed, h₂.stored.trans h₁.stored⟩
  · intro v hv
    rw [h₂.values v (hs.known_mono happends hv), h₁.values v hv]
  · intro name hdot
    rw [h₂.dotted name hdot, h₁.dotted name hdot]

theorem ne_next (hs : s.Sound scope) {name : String} {ty : Ir.Ty}
    (h : (name, ty) ∈ s.function.visible) : name ≠ s.next := by
  intro heq
  rcases List.mem_append.mp h with henter | hhere
  · have hdot := hs.function.dotted _ henter
    rw [heq] at hdot
    exact Draft.dot_notMem_tempName _ hdot
  · obtain ⟨b, hb⟩ : ∃ b, s.function.blocks[s.function.current]? = some b :=
      ⟨_, Array.getElem?_eq_getElem hs.function.current⟩
    rw [FunctionDraft.here_eq hb] at hhere
    obtain ⟨n, hn, hname⟩ := hs.function.counted _ b hb _ hhere
    have hsame : Draft.tempName n = Draft.tempName s.function.nextTemp := hname.symm.trans heq
    exact absurd (Draft.tempName_inj hsame) (Nat.ne_of_lt hn)

theorem set (hs : s.Sound scope) (d : Memory) (hc : ∀ name, c ≠ .slot name) :
    Undisturbed s d (d.set s.next c) := by
  refine ⟨?_, ?_, ?_, rfl, List.prefix_refl _, rfl, rfl⟩
  · intro v hv
    cases v with
    | register name ty => exact if_neg (ne_next hs hv)
    | _ => rfl
  · intro name hdot
    refine if_neg ?_
    rintro rfl
    exact Draft.dot_notMem_tempName _ hdot
  · intro htemps k name
    show (if Draft.tempName k = s.next then c else d.registers (Draft.tempName k)) ≠ .slot name
    split
    · exact hc name
    · exact htemps k name

theorem allocate (hs : s.Sound scope) (d : Memory) (size : Content) :
    Undisturbed s d ((d.allocate size).set s.next (.block d.sizes.length 0)) := by
  have hset := set hs d (c := .block d.sizes.length 0) (by simp)
  refine ⟨fun v hv => ?_, hset.dotted, hset.temps, rfl, List.prefix_append _ _, rfl, rfl⟩
  rw [← hset.values v hv]
  cases v <;> rfl

end Undisturbed

theorem Undisturbed.orderly {F : FunctionDraft} {s : State} {d d' : Memory}
    (hd : Undisturbed s d d') (hF : F.Whole) (h : d.Orderly F) : d'.Orderly F := by
  have hle : d.sizes.length ≤ d'.sizes.length := hd.sizes.length_le
  refine ⟨?_, hd.temps h.temps, ?_, ?_, ?_, ?_⟩
  · intro name ty hname
    rw [hd.dotted name (hF.dotted name ty hname)]
    exact h.addresses name ty hname
  · rw [hd.slots, hd.freed]
    intro name hname
    refine (h.live name hname).imp_right ?_
    rintro ⟨b, hb, hlt, hfreed⟩
    exact ⟨b, hb, Nat.lt_of_lt_of_le hlt hle, hfreed⟩
  · rw [hd.slots]
    exact h.apart
  · rw [hd.freed]
    exact fun b hb => Nat.lt_of_lt_of_le (h.freed b hb) hle
  · rw [hd.slots, hd.stored]
    exact h.never

/-! ### What is known of strings -/

/-- Memory in which the strings of a scope are where they should be. -/
structure HoldsStrings (reads : Prop) (F : FunctionDraft) (scope : Scope) (storage : Storage)
    (lengths : Lengths) (d : Memory) : Prop where
  orderly : d.Orderly F
  /-- A buffer has the size that is known of it. -/
  known : ∀ (x : String) (slot : Slot) (n : Nat) (name : String), storage[(⟨x, scope⟩ : Symbol)]? =
    some slot →
    slot.length = some n → slot.address = .register name (.ptr .bytes) → F.Buffer name →
    Draft.SlotOf x name → ∃ b, d.slots name = .block b 0 ∧ d.sizes[b]? = some (some n)
  /-- The buffer that has been stored last has a size that an assignment may have left. -/
  last : reads → ∀ x name, F.Buffer name → LastStored x d.stored name →
    ∃ b n, d.slots name = .block b 0 ∧ d.sizes[b]? = some (some n) ∧ n ∈ lengths x

/-- Can so many bytes be copied from the address? -/
def Copyable (globals : List Global) (d : Memory) (c : Content) (n : Nat) : Prop :=
  d.Spans c (.number n) ∨ Memory.SpansConstant globals c (.number n) ∨ d.Unassigned c

/-- Is the address not that of a buffer of the variable, nor read from it? -/
structure Foreign (F : FunctionDraft) (d : Memory) (x : String) (c : Content) : Prop where
  block : ∀ name b offset, F.Buffer name → Draft.SlotOf x name → d.slots name = .block b 0 →
    c ≠ .block b offset
  nowhere : ∀ name, c = .nowhere (some name) → ¬ Draft.SlotOf x name

theorem Undisturbed.spans {s : State} {d d' : Memory} {count : Content} (hd : Undisturbed s d d')
    (h : d.Spans c count) : d'.Spans c count := by
  obtain ⟨b, offset, n, size, hc, hcount, hsize, hoffset, hle, hbound, hfreed⟩ := h
  exact ⟨b, offset, n, size, hc, hcount, getElem?_sizes hd.sizes hsize, hoffset, hle, hbound,
    by rw [hd.freed]; exact hfreed⟩

theorem Copyable.undisturbed {s : State} {d d' : Memory} (h : Copyable globals d c n)
    (hd : Undisturbed s d d') : Copyable globals d' c n := by
  rcases h with hspans | hconstant | ⟨name, x, hc, hslot, hnever⟩
  · exact Or.inl (hd.spans hspans)
  · exact Or.inr (Or.inl hconstant)
  · exact Or.inr (Or.inr ⟨name, x, hc, hslot, by rw [hd.stored]; exact hnever⟩)

theorem Foreign.undisturbed {F : FunctionDraft} {s : State} {d d' : Memory} {x : String}
    (h : Foreign F d x c) (hd : Undisturbed s d d') : Foreign F d' x c :=
  ⟨by rw [hd.slots]; exact h.block, h.nowhere⟩

/-- What can be copied from elsewhere can still be copied if the buffer of a variable is
replaced. -/
theorem Copyable.rebuffer {F : FunctionDraft} {d : Memory} {x name : String}
    (h : Copyable globals d c n)
    (hforeign : Foreign F d x c) (hname : F.Buffer name) (hx : Draft.SlotOf x name)
    (hold : ∀ b offset, old = .block b offset → d.slots name = .block b 0) (size : Nat)
    (dest : String) : Copyable globals (d.rebuffer old size dest name) c n := by
  rcases h with ⟨b, offset, count, held, hc, hcount, hsize, hoffset, hle, hbound,
    hfreed⟩ | hconstant | ⟨other, y, hc, hslot, hnever⟩
  · refine Or.inl ⟨b, offset, count, held, hc, hcount,
      getElem?_sizes (List.prefix_append _ _) hsize, hoffset, hle, hbound, fun hmem => ?_⟩
    rcases Memory.mem_freed_release hmem with hmem | ⟨given, hgiven⟩
    · exact hfreed hmem
    · exact hforeign.block name b offset hname hx (hold b given hgiven) hc
  · exact Or.inr (Or.inl hconstant)
  · refine Or.inr (Or.inr ⟨other, y, hc, hslot, ?_⟩)
    intro r hr hry
    rcases List.mem_cons.mp hr with rfl | hr
    · rw [hry.unique hx] at hslot
      exact hforeign.nowhere other hc hslot
    · exact hnever r hr hry

namespace HoldsStrings

variable {reads : Prop} {F : FunctionDraft} {scope : Scope} {storage storage' : Storage}
  {lengths lengths' : Lengths} {s : State} {d d' : Memory} {x name : String}

theorem undisturbed (hF : F.Whole) (h : HoldsStrings reads F scope storage lengths d)
    (hd : Undisturbed s d d') : HoldsStrings reads F scope storage lengths d' := by
  refine ⟨hd.orderly hF h.orderly, ?_, ?_⟩
  · intro x slot n name hslot hlength haddress hname hx
    obtain ⟨b, hb, hsize⟩ := h.known x slot n name hslot hlength haddress hname hx
    exact ⟨b, by rw [hd.slots]; exact hb, getElem?_sizes hd.sizes hsize⟩
  · rw [hd.stored]
    intro hreads x name hname hlast
    obtain ⟨b, n, hb, hsize, hn⟩ := h.last hreads x name hname hlast
    exact ⟨b, n, by rw [hd.slots]; exact hb, getElem?_sizes hd.sizes hsize, hn⟩

/-- Less may be known of the sizes of buffers, and more sizes may have been left. -/
theorem weaken (h : HoldsStrings reads F scope storage lengths d)
    (hknown : ∀ (x : String) (slot : Slot) (n : Nat), storage'[(⟨x, scope⟩ : Symbol)]? = some slot →
      slot.length = some n → ∃ old, storage[(⟨x, scope⟩ : Symbol)]? = some old ∧
      old.address = slot.address ∧
        old.length = some n)
    (hlengths : ∀ x, lengths x ⊆ lengths' x) : HoldsStrings reads F scope storage' lengths' d := by
  refine ⟨h.orderly, ?_, ?_⟩
  · intro x slot n name hslot hlength haddress hname hx
    obtain ⟨old, hold, hsame, hlength'⟩ := hknown x slot n hslot hlength
    exact h.known x old n name hold hlength' (hsame.trans haddress) hname hx
  · intro hreads x name hname hlast
    obtain ⟨b, n, hb, hsize, hn⟩ := h.last hreads x name hname hlast
    exact ⟨b, n, hb, hsize, hlengths x hn⟩

theorem storeOther (h : HoldsStrings reads F scope storage lengths d) (hname : ¬ F.Buffer name)
    (hx : Draft.SlotOf x name)
    (hothers : ∀ y, y ≠ x → storage'[(⟨y, scope⟩ : Symbol)]? = storage[(⟨y, scope⟩ : Symbol)]?)
    (hslot : ∀ slot, storage'[(⟨x, scope⟩ : Symbol)]? = some slot →
      ∃ ty, slot.address = .register name ty)
    (c : Content) (sizes : List Nat) :
    HoldsStrings reads F scope storage' (lengths.assign x sizes)
      { d.setSlot name c with stored := name :: d.stored } := by
  have hslots : ∀ other, F.Buffer other → (d.setSlot name c).slots other = d.slots other := by
    intro other hother
    refine if_neg ?_
    rintro rfl
    exact hname hother
  refine ⟨h.orderly.of_buffers rfl hslots rfl rfl (List.subset_cons_self _ _), ?_, ?_⟩
  · intro y slot n other hfound hlength haddress hother hslotOf
    have hne : y ≠ x := by
      rintro rfl
      obtain ⟨ty, hty⟩ := hslot slot hfound
      rw [haddress, Value.register.injEq] at hty
      rw [hty.1] at hother
      exact hname hother
    rw [hothers y hne] at hfound
    obtain ⟨b, hb, hsize⟩ := h.known y slot n other hfound hlength haddress hother hslotOf
    exact ⟨b, (hslots other hother).trans hb, hsize⟩
  · intro hreads y other hother hlast
    have hne : y ≠ x := by
      rintro rfl
      rw [hlast.unique (LastStored.here hx d.stored)] at hother
      exact hname hother
    rw [LastStored.cons_iff fun hy => hne (hy.unique hx)] at hlast
    obtain ⟨b, n, hb, hsize, hn⟩ := h.last hreads y other hother hlast
    refine ⟨b, n, (hslots other hother).trans hb, hsize, ?_⟩
    rw [Lengths.assign, if_neg hne]
    exact hn

theorem storeElement (h : HoldsStrings reads F scope storage lengths d) (k : Nat) :
    HoldsStrings reads F scope storage lengths
    { d with stored := Draft.tempName k :: d.stored } := by
  refine ⟨h.orderly.of_buffers rfl (fun _ _ => rfl) rfl rfl (List.subset_cons_self _ _),
    h.known, ?_⟩
  intro hreads x name hname hlast
  exact h.last hreads x name hname ((LastStored.cons_iff (Draft.not_slotOf_tempName x k)).1 hlast)

theorem expose (h : HoldsStrings reads F scope storage lengths d) {args : List Value}
    (hargs : ∀ arg ∈ args, ∀ name, d.eval arg = .slot name → ¬ F.Buffer name) :
    HoldsStrings reads F scope storage lengths (d.expose args) := by
  have hslots : ∀ other, F.Buffer other → (d.expose args).slots other = d.slots other := by
    intro other hother
    refine if_neg ?_
    rw [List.any_eq_true]
    rintro ⟨arg, harg, heval⟩
    exact hargs arg harg other (of_decide_eq_true heval) hother
  refine ⟨h.orderly.of_buffers rfl hslots rfl rfl (List.Subset.refl _), ?_, ?_⟩
  · intro x slot n name hslot hlength haddress hname hx
    rw [hslots name hname]
    exact h.known x slot n name hslot hlength haddress hname hx
  · intro hreads x name hname hlast
    rw [hslots name hname]
    exact h.last hreads x name hname hlast

theorem rebuffer (h : HoldsStrings reads F scope storage lengths d) (hF : F.Whole)
    (hname : F.Buffer name) (hx : Draft.SlotOf x name)
    (hothers : ∀ y, y ≠ x → storage'[(⟨y, scope⟩ : Symbol)]? = storage[(⟨y, scope⟩ : Symbol)]?)
    (hslot : ∀ slot, storage'[(⟨x, scope⟩ : Symbol)]? = some slot →
      slot.length = some n ∧ ∃ ty, slot.address = .register name ty)
    (hold : ∀ b offset, old = .block b offset → d.slots name = .block b 0) (k : Nat) :
    HoldsStrings reads F scope storage' (lengths.assign x [n])
    (d.rebuffer old n (Draft.tempName k) name) := by
  refine ⟨h.orderly.rebuffer hF hname hold k n, ?_, ?_⟩
  · intro y slot m other hfound hlength haddress hother hslotOf
    by_cases hy : y = x
    · rw [hy] at hfound
      obtain ⟨hn, ty, hty⟩ := hslot slot hfound
      rw [haddress, Value.register.injEq] at hty
      rw [hlength, Option.some.injEq] at hn
      rw [hty.1, hn]
      exact ⟨d.sizes.length, if_pos rfl, d.getElem?_rebuffer old n _ name⟩
    · have hne : other ≠ name := by
        rintro rfl
        exact hy (hslotOf.unique hx)
      rw [hothers y hy] at hfound
      obtain ⟨b, hb, hsize⟩ := h.known y slot m other hfound hlength haddress hother hslotOf
      exact ⟨b, (if_neg hne).trans hb, getElem?_sizes (List.prefix_append _ _) hsize⟩
  · intro hreads y other hother hlast
    by_cases hy : y = x
    · rw [hy] at hlast ⊢
      rw [hlast.unique (LastStored.here hx d.stored)]
      exact ⟨d.sizes.length, n, if_pos rfl,
        d.getElem?_rebuffer old n _ name, by simp [Lengths.assign]⟩
    · have hlast' : LastStored y (name :: d.stored) other := hlast
      rw [LastStored.cons_iff fun hs => hy (hs.unique hx)] at hlast'
      have hne : other ≠ name := by
        rintro rfl
        exact hy (hlast'.slotOf.unique hx)
      obtain ⟨b, m, hb, hsize, hm⟩ := h.last hreads y other hother hlast'
      refine ⟨b, m, (if_neg hne).trans hb, getElem?_sizes (List.prefix_append _ _) hsize, ?_⟩
      rw [Lengths.assign, if_neg hy]
      exact hm

end HoldsStrings

end Lower

end Pseudocode
