import Pseudocode.Proofs.Lower.Paths
import Pseudocode.Proofs.Slots.Loads
import Pseudocode.Proofs.Slots.Turns

/-!
Trails and slots.

The slots of a variable are counted in the order in which a function has reserved them (`slotsOf`).
A trail is right about a state if the slot that is in the storage is the one that it says
(`Tracks`), and it is right about a path if what the path has stored to last is among the slots that
it has (`Marks`).  If besides no other slot is among them, then a load from the slot in the storage
finds what has been stored last (`trails_fetching`).  Storing to a variable goes on with the trail
as `Trail.store` says (`trails_store`), and so does assigning a string, even if its buffer is kept
and nothing is stored to its slot (`trails_stringBuffer`).
-/

namespace Pseudocode

variable {f g : FunctionDraft} {ty : Ir.Ty} {stands? : Option (Nat × SlotKind)} {slot : Slot}
  {k n : Nat} {kind : SlotKind}

namespace Ir

/-- The slot that an instruction reserves. -/
def Instr.reserves? : Instr → Option String
  | alloca name _ => some name
  | _ => none

open Classical in
/-- The slots of the variable `x`, in the order in which they have been reserved. -/
noncomputable def FunctionDraft.slotsOf (f : FunctionDraft) (x : String) : List String :=
  (f.prologue.toList.filterMap Instr.reserves?).filter (Draft.SlotOf x ·)

namespace FunctionDraft

theorem slotsOf_congr (h : g.prologue = f.prologue) (x : String) : g.slotsOf x = f.slotsOf x := by
  rw [slotsOf, h]
  rfl

theorem slotsOf_prefix_of_extends (h : f.Extends g) (x : String) : f.slotsOf x <+: g.slotsOf x :=
  (h.prologue.filterMap _).filter _

theorem slotsOf_alloca {x dest : String} {ty : Ty}
    (hg : g.prologue = f.prologue.push (.alloca dest ty))
    (h : Draft.SlotOf x dest) : g.slotsOf x = f.slotsOf x ++ [dest] := by
  rw [slotsOf, hg, Array.toList_push, List.filterMap_append, List.filter_append]
  simp [Instr.reserves?, h, slotsOf]

theorem slotsOf_other {x : String} {i : Instr} (hg : g.prologue = f.prologue.push i)
    (h : ∀ name, i.reserves? = some name → ¬ Draft.SlotOf x name) : g.slotsOf x = f.slotsOf x := by
  rw [slotsOf, hg, Array.toList_push, List.filterMap_append, List.filter_append]
  cases hi : i.reserves? with
  | none => simp [hi, slotsOf]
  | some name => simp [hi, h name hi, slotsOf]

end FunctionDraft

/-- Watching the loads of one variable. -/
def lastWriteOf (x : String) : Watch (List String) where
  step := Instr.record
  ok i stored := ∀ name, i.loadsFrom? = some name → Draft.SlotOf x name →
  ∀ last, LastStored x stored last → last = name

/-- All loads find what has been stored last if those of every variable do. -/
theorem Function.readsLastWrite_of_forall {f : Function} (h : ∀ x, f.Passes (lastWriteOf x) []) :
    f.ReadsLastWrite := by
  intro c hc i rest hcode name x hload hslot last hlast
  exact h x c (hc.map id (fun _ _ => rfl) fun _ _ _ => trivial) i rest hcode name hload hslot
    last hlast

/-- Is it the place of the slot of `x` that has been stored to last?  There is no such place if none
has been. -/
def LastAt (names : List String) (x : String) (stored : List String) : Option Nat → Prop
  | none => ∀ name ∈ stored, ¬ Draft.SlotOf x name
  | some k => ∃ name, names[k]? = some name ∧ LastStored x stored name

theorem LastAt.cons {names stored : List String} {x name : String} {k? : Option Nat}
    (h : LastAt names x stored k?)
    (hname : ¬ Draft.SlotOf x name) : LastAt names x (name :: stored) k? := by
  cases k? with
  | none =>
    intro other hother
    rcases List.mem_cons.mp hother with rfl | hother
    · exact hname
    · exact h other hother
  | some k =>
    obtain ⟨last, hplace, hlast⟩ := h
    exact ⟨last, hplace, (LastStored.cons_iff hname).2 hlast⟩

end Ir

namespace Lower

open Ir

/-! ### States -/

/-- Is the slot the one that is said to stand for the variable? -/
def Stands (names : List String) : Option Slot → Option (Nat × SlotKind) → Prop
  | none, none => True
  | some slot, some (k, kind) =>
    slot.kind = kind ∧ ∃ name ty, slot.address = .register name ty ∧ names[k]? = some name
  | _, _ => False

theorem Stands.mono {names more : List String} {slot? : Option Slot}
    (h : Stands names slot? stands?) (hmore : names <+: more) : Stands more slot? stands? := by
  match slot?, stands?, h with
  | none, none, _ => trivial
  | some slot, some (k, kind), ⟨hkind, name, ty, haddress, hplace⟩ =>
    obtain ⟨rest, rfl⟩ := hmore
    refine ⟨hkind, name, ty, haddress, ?_⟩
    rw [List.getElem?_append_left (List.getElem?_eq_some_iff.mp hplace).1]
    exact hplace

theorem Stands.of_slot {names : List String} {slot' : Slot} (h : Stands names (some slot) stands?)
    (haddress : slot'.address = slot.address) (hkind : slot'.kind = slot.kind) :
    Stands names (some slot') stands? := by
  match stands?, h with
  | some (k, kind), ⟨hslotKind, name, ty, hslot, hplace⟩ =>
    exact ⟨hkind.trans hslotKind, name, ty, haddress.trans hslot, hplace⟩

/-- Is the trail of `x` right about the state? -/
structure Tracks (x : String) (scope : Scope) (s : State) (t : Trail) : Prop where
  count : (s.function.slotsOf x).length = t.count
  stands : Stands (s.function.slotsOf x) s.storage[(⟨x, scope⟩ : Symbol)]? t.slot?

variable {globals : List Global} {F : FunctionDraft} {scope : Scope} {x y : String} {t : Trail}
  {s s₁ s' : State} {d : List String} {names : List String} {v : Value} {u : Unit}

theorem Tracks.of_eq {t' : Trail} (h : Tracks x scope s t)
    (hprologue : s'.function.prologue = s.function.prologue)
    (hstorage : s'.storage[(⟨x, scope⟩ : Symbol)]? = s.storage[(⟨x, scope⟩ : Symbol)]?)
    (hcount : t'.count = t.count) (hslot : t'.slot? = t.slot?) : Tracks x scope s' t' := by
  refine ⟨?_, ?_⟩
  · rw [FunctionDraft.slotsOf_congr hprologue, hcount]
    exact h.count
  · rw [FunctionDraft.slotsOf_congr hprologue, hstorage, hslot]
    exact h.stands

theorem Tracks.of_appends (h : Tracks x scope s t) (ha : Appends s s') : Tracks x scope s' t := by
  obtain ⟨is, his⟩ := ha.function
  exact h.of_eq (by rw [his]; rfl) (by rw [ha.storage]) rfl rfl

namespace Tracks

theorem stands_of_slot (h : Tracks x scope s t)
    (hslot : s.storage[(⟨x, scope⟩ : Symbol)]? = some slot) :
    ∃ k, t.slot? = some (k, slot.kind) := by
  have hstands := h.stands
  rw [hslot] at hstands
  match hcase : t.slot?, hstands with
  | some (k, kind), ⟨hkind, _⟩ => exact ⟨k, by rw [hkind]⟩

theorem slot_of_stands (h : Tracks x scope s t) (hk : t.slot? = some (k, kind)) :
    ∃ slot name ty, s.storage[(⟨x, scope⟩ : Symbol)]? = some slot ∧ slot.kind = kind ∧
      slot.address = .register name ty ∧ (s.function.slotsOf x)[k]? = some name := by
  have hstands := h.stands
  rw [hk] at hstands
  match hcase : s.storage[(⟨x, scope⟩ : Symbol)]?, hstands with
  | some slot, ⟨hkind, name, ty, haddress, hplace⟩ =>
    exact ⟨slot, name, ty, rfl, hkind, haddress, hplace⟩

/-- The slot in the storage is where the trail says. -/
theorem place (h : Tracks x scope s t) (hF : s.function.Extends F)
    (hslot : s.storage[(⟨x, scope⟩ : Symbol)]? = some slot) (hk : t.slot? = some (k, kind))
    {name : String}
    (haddress : slot.address = .register name ty) : (F.slotsOf x)[k]? = some name := by
  have hstands := h.stands.mono (FunctionDraft.slotsOf_prefix_of_extends hF x)
  rw [hslot, hk] at hstands
  obtain ⟨-, name', ty', haddress', hplace⟩ := hstands
  rw [haddress, Value.register.injEq] at haddress'
  rw [haddress'.1]
  exact hplace

end Tracks

/-! ### Paths -/

/-- Is the trail of `x` right about a path that has stored to these slots?  Where the size of the
buffer of `x` is known, the path has come through an assignment. -/
structure Marks (F : FunctionDraft) (x : String) (scope : Scope) (storage : Storage) (t : Trail)
    (stored : List String) : Prop where
  last : ∃ k? ∈ t.last, LastAt (F.slotsOf x) x stored k?
  sized : ∀ slot n, storage[(⟨x, scope⟩ : Symbol)]? = some slot → slot.length = some n →
    ∃ name ∈ stored, Draft.SlotOf x name

theorem Marks.of_eq {storage storage' : Storage} (h : Marks F x scope storage t d)
    (hstorage : storage'[(⟨x, scope⟩ : Symbol)]? = storage[(⟨x, scope⟩ : Symbol)]?) :
    Marks F x scope storage' t d :=
  ⟨h.last, by rw [hstorage]; exact h.sized⟩

/-- Code through which the trail of `x` goes from `t` to `t'`. -/
def TrailsCode (x : String) (globals : List Global) (F : FunctionDraft) (scope : Scope)
    (t t' : Trail) (s s' : State) : Prop :=
  Tracks x scope s t → Tracks x scope s' t' ∧ ∀ d, Marks F x scope s.storage t d →
    Leads (lastWriteOf x) F globals s s' d (Marks F x scope s'.storage t')

namespace TrailsCode

variable {t₁ t' : Trail}

theorem refl (t : Trail) (s : State) : TrailsCode x globals F scope t t s s :=
  fun ht => ⟨ht, fun _ hd => Leads.refl hd⟩

theorem trans (h₁ : TrailsCode x globals F scope t t₁ s s₁)
    (hwithin : s'.Within F globals → s₁.Within F globals)
    (h₂ : TrailsCode x globals F scope t₁ t' s₁ s') : TrailsCode x globals F scope t t' s s' := by
  intro ht
  obtain ⟨ht₁, hleads₁⟩ := h₁ ht
  obtain ⟨ht', hleads⟩ := h₂ ht₁
  exact ⟨ht', fun d hd => (hleads₁ d hd).trans hwithin hleads⟩

end TrailsCode

/-- **A load from the slot in the storage finds what has been stored last**, if no other slot is
among the last. -/
theorem Tracks.loads (ht : Tracks x scope s t) (hd : Marks F x scope s.storage t d)
    (hF : s.function.Extends F)
    (hloads : t.loads) {name last : String} (hslot : s.storage[(⟨x, scope⟩ : Symbol)]? = some slot)
    (haddress : slot.address = .register name ty) (hlast : LastStored x d last) : last = name := by
  obtain ⟨k?, hk, hat⟩ := hd.last
  obtain ⟨j, hj⟩ := ht.stands_of_slot hslot
  rw [Trail.loads, decide_eq_true_eq] at hloads
  cases k? with
  | none => exact absurd hlast.slotOf (hat last hlast.mem)
  | some k =>
    obtain ⟨other, hother, hlast'⟩ := hat
    have hkj : k = j := by simpa [hj] using hloads _ hk
    rw [hkj, ht.place hF hslot hj haddress, Option.some.injEq] at hother
    rw [hlast.unique hlast', ← hother]

/-- Code that stores nothing and loads variables in order is passed, and changes nothing. -/
theorem trails_fetching (hs : SlotsNamed scope s.storage) (hopen : s.function.Open)
    (h : Fetching scope names s s')
    (hloads : x ∈ names → ∀ slot name ty, s.storage[(⟨x, scope⟩ : Symbol)]? = some slot →
      slot.address = .register name ty → ∀ last, LastStored x d last → last = name) :
    Leads (lastWriteOf x) F globals s s' d (· = d) := by
  intro hwithin
  obtain ⟨is, his, hall⟩ := h.code
  rw [his]
  have hext := hwithin.function
  rw [his] at hext
  refine FunctionDraft.confines_extend hopen hext ?_
  clear his hext
  induction is with
  | nil => rfl
  | cons i is ih =>
    have hi := hall i List.mem_cons_self
    have hstep : (lastWriteOf x).step i d = d := by
      show i.storesTo?.toList ++ d = d
      rw [hi.stores]
      rfl
    refine ⟨?_, fun _ => ?_⟩
    · intro name hload hslotOf last hlast
      cases i with
      | load dest ty ptr =>
        cases ptr with
        | register name' ty' =>
          rw [Instr.loadsFrom?, Option.some.injEq] at hload
          rw [← hload] at hslotOf ⊢
          rcases hi.loads dest ty _ rfl name' ty' rfl with ⟨k, rfl⟩ | ⟨y, hy, slot, hslot, haddress⟩
          · exact absurd hslotOf (Draft.not_slotOf_tempName x k)
          · obtain ⟨name'', ty'', haddress', hslotOf'⟩ := (hs ⟨y, scope⟩ slot hslot rfl).address
            rw [haddress, Value.register.injEq] at haddress'
            rw [← haddress'.1] at hslotOf'
            obtain rfl := hslotOf.unique hslotOf'
            exact hloads hy slot name' ty' hslot haddress last hlast
        | _ => simp [Instr.loadsFrom?] at hload
      | _ => simp [Instr.loadsFrom?] at hload
    · rw [hstep]
      exact ih fun j hj => hall j (List.mem_cons_of_mem _ hj)

/-! ### Slots that are found or made -/

theorem Tracks.found (h : Tracks x scope s t)
    (hslot : s.storage[(⟨y, scope⟩ : Symbol)]? = some slot)
    (hkind : slot.kind = kind) : Tracks x scope s (if y = x then t.store kind else t) := by
  split
  · next heq =>
      subst heq
      obtain ⟨k, hk⟩ := h.stands_of_slot hslot
      have hstore : t.store kind = { t with last := t.last.image fun _ => some k } := by
        simp only [Trail.store, hk, hkind, if_true]
      rw [hstore]
      exact h.of_eq rfl rfl rfl rfl
  · exact h

theorem slotsOf_reserved (s : State) (x y : String) (ty : Ir.Ty) :
    (s.reserved ⟨y, scope⟩ ty).function.slotsOf x =
      s.function.slotsOf x ++ if y = x then [s.slotName ⟨y, scope⟩] else [] := by
  have hname : Draft.SlotOf y (s.slotName ⟨y, scope⟩) := Draft.slotOf_freshName _ _
  split
  · next heq =>
      subst heq
      exact FunctionDraft.slotsOf_alloca rfl hname
  · next hne =>
      rw [List.append_nil]
      refine FunctionDraft.slotsOf_other rfl ?_
      rintro name hreserves hx
      rw [Instr.reserves?, Option.some.injEq] at hreserves
      rw [← hreserves] at hx
      exact hne (hname.unique hx)

theorem Tracks.made (h : Tracks x scope s t) (hlacks : s.Lacks ⟨y, scope⟩ kind)
    (hslots : s'.function.slotsOf x = (s.reserved ⟨y, scope⟩ ty).function.slotsOf x)
    (hstorage : s'.storage = s.storage.insert ⟨y, scope⟩ slot) (hkind : slot.kind = kind)
    {addressTy : Ir.Ty} (haddress : slot.address = .register (s.slotName ⟨y, scope⟩) addressTy) :
    Tracks x scope s' (if y = x then t.store kind else t) := by
  rw [slotsOf_reserved] at hslots
  split
  · next heq =>
      subst heq
      rw [if_pos rfl] at hslots
      have hstore : t.store kind = t.renew kind := by
        cases hstands? : t.slot? with
        | none => simp [Trail.store, hstands?]
        | some stands =>
          obtain ⟨old, -, -, hold, hkind', -⟩ := h.slot_of_stands hstands?
          have hne : stands.2 ≠ kind := fun hsame => hlacks old hold (hkind'.trans hsame)
          simp [Trail.store, hstands?, hne]
      rw [hstore]
      refine ⟨?_, ?_⟩
      · rw [hslots, List.length_append, h.count]
        rfl
      · rw [hslots, hstorage, Std.TreeMap.getElem?_insert_self]
        refine ⟨hkind, _, addressTy, haddress, ?_⟩
        rw [← h.count, List.getElem?_append_right (Nat.le_refl _), Nat.sub_self]
        rfl
  · next hne =>
      rw [if_neg hne, List.append_nil] at hslots
      refine ⟨?_, ?_⟩
      · rw [hslots]
        exact h.count
      · rw [hslots, hstorage, getElem?_insert_other s.storage (Ne.symm hne)]
        exact h.stands

theorem Tracks.slotRun {address : Value} (h : Tracks x scope s t)
    (hslot : SlotRun scope y kind ty s s₁ address) :
    Tracks x scope s₁ (if y = x then t.store kind else t) := by
  rcases hslot with ⟨slot, hslot, hkind, -, rfl⟩ | ⟨hlacks, rfl, rfl⟩
  · exact h.found hslot hkind
  · exact h.made hlacks rfl rfl rfl rfl

/-- A buffer is found or made, and it is known how large it is. -/
theorem Tracks.stringBuffer (h : Tracks x scope s t)
    (hrun : Runs (stringBuffer ⟨y, scope⟩ n) s v s') :
    Tracks x scope s' (if y = x then t.store (.scalar .string) else t) := by
  rcases runs_stringBuffer hrun with ⟨slot, hslot, hkind, -, hload⟩ |
    ⟨slot, old, size, s₁, s₂, s₃, s₄, hslot, hkind, hload, hsize, hrealloc, hstore, rfl⟩ |
    ⟨hlacks, size, s₁, s₂, s₃, s₄, hfirst, hsize, hmalloc, hstore, rfl⟩
  · exact (h.found hslot hkind).of_appends hload.appends
  · have a := (hload.appends.trans hsize.appends).trans (hrealloc.appends.trans hstore.appends)
    have h₄ := (h.found hslot hkind).of_appends a
    refine ⟨h₄.count, ?_⟩
    have hstands := h₄.stands
    by_cases heq : y = x
    · subst heq
      rw [a.storage, hslot] at hstands
      show Stands _ (s₄.storage.insert _ _)[(⟨y, scope⟩ : Symbol)]? _
      rw [Std.TreeMap.getElem?_insert_self]
      exact hstands.of_slot rfl rfl
    · show Stands _ (s₄.storage.insert _ _)[(⟨x, scope⟩ : Symbol)]? _
      rw [getElem?_insert_other s₄.storage (Ne.symm heq)]
      exact hstands
  · obtain ⟨-, hs₁⟩ := runs_storeFirst.1 hfirst
    have a := hsize.appends.trans (hmalloc.appends.trans hstore.appends)
    obtain ⟨is, his⟩ := a.function
    have hstorage : s₄.storage = s.storage := by
      rw [a.storage, hs₁]
      rfl
    have hprologue : s₄.function.prologue = (s.reserved ⟨y, scope⟩ .bytes).function.prologue.push
        (.store (.null .bytes) (.register (s.slotName ⟨y, scope⟩) (.ptr .bytes))) := by
      rw [his, hs₁]
      rfl
    have hslots : s₄.function.slotsOf x = (s.reserved ⟨y, scope⟩ .bytes).function.slotsOf x :=
      FunctionDraft.slotsOf_other hprologue (by simp [Instr.reserves?])
    exact h.made hlacks hslots (congrArg (fun storage : Storage => storage.insert _ _) hstorage) rfl
      rfl

/-! ### Storing -/

namespace Marks

variable {storage storage' : Storage} {name : String}

theorem storeOther (h : Marks F x scope storage t d) (hname : ¬ Draft.SlotOf x name)
    (hstorage : storage'[(⟨x, scope⟩ : Symbol)]? = storage[(⟨x, scope⟩ : Symbol)]?) :
    Marks F x scope storage' t (name :: d) := by
  obtain ⟨k?, hk, hlast⟩ := h.last
  refine ⟨⟨k?, hk, hlast.cons hname⟩, ?_⟩
  rw [hstorage]
  intro slot n hslot hlength
  obtain ⟨other, hother, hslotOf⟩ := h.sized slot n hslot hlength
  exact ⟨other, List.mem_cons_of_mem _ hother, hslotOf⟩

theorem storeThis (h : Marks F x scope storage t d) (kind : SlotKind) (hname : Draft.SlotOf x name)
    (hplace : ∀ k, (t.store kind).slot? = some (k, kind) → (F.slotsOf x)[k]? = some name) :
    Marks F x scope storage' (t.store kind) (name :: d) := by
  obtain ⟨k?, hk, -⟩ := h.last
  obtain ⟨k, count, hstore⟩ := t.store_eq kind
  have heq : t.store kind = ⟨some (k, kind), count, t.last.image fun _ => some k⟩ := hstore t.last
  refine ⟨⟨some k, ?_, name, hplace k (by rw [heq]), LastStored.here hname d⟩, fun _ _ _ _ =>
    ⟨name, List.mem_cons_self, hname⟩⟩
  rw [heq]
  exact Finset.mem_image.mpr ⟨k?, hk, rfl⟩

end Marks

/-- A value has been stored to a variable, whose slot is in the storage afterwards. -/
theorem trails_stored {storage : Storage} {name : String} (hopen : s.function.Open)
    (hv : ∀ ty, v ≠ .null ty)
    (hfunction : s'.function = s.function.extend [.store v (.register name ty)])
    (ht : Tracks x scope s' (if y = x then t.store kind else t)) (hd : Marks F x scope storage t d)
    (hslot : s'.storage[(⟨y, scope⟩ : Symbol)]? = some slot)
    (haddress : slot.address = .register name ty) (hname : Draft.SlotOf y name)
    (hothers : y ≠ x → s'.storage[(⟨x, scope⟩ : Symbol)]? = storage[(⟨x, scope⟩ : Symbol)]?) :
    Leads (lastWriteOf x) F globals s s' d
    (Marks F x scope s'.storage (if y = x then t.store kind else t)) := by
  intro hwithin
  have hext := hwithin.function
  rw [hfunction] at hext ⊢
  refine FunctionDraft.confines_extend hopen hext
    ⟨by simp [lastWriteOf, Instr.loadsFrom?], fun _ => ?_⟩
  show Marks F x scope s'.storage _ ((Instr.store v (.register name ty)).record d)
  rw [Instr.record_store name ty hv]
  split
  · next heq =>
      subst heq
      rw [if_pos rfl] at ht
      exact hd.storeThis kind hname fun k hk => ht.place hwithin.function hslot hk haddress
  · next hne => exact hd.storeOther (fun hx => hne (hname.unique hx)) (hothers hne)

theorem trails_store {address : Value} (hs : s.Tidy .any scope) (hF : F.Whole)
    (hopen : s.function.Open)
    (hv : v.Known s.function.visible) (hslot : SlotRun scope y kind ty s s₁ address)
    (hkind : kindTy? kind = some ty) (hstore : Runs (store v address) s₁ u s') :
    TrailsCode x globals F scope t (if y = x then t.store kind else t) s s' := by
  intro ht
  have ht' := (ht.slotRun hslot).of_appends hstore.appends
  refine ⟨ht', fun d hd => Leads.of_within fun hwithin => ?_⟩
  obtain ⟨-, rfl⟩ := runs_store.1 hstore
  obtain ⟨k₁, o₁⟩ := hslot.straight.keeps hopen
  have hwithin₁ := (Appends.emit s₁ _).within o₁ hwithin
  obtain ⟨name, hready⟩ :=
    hslot.ready (hs.placed hopen hF (k₁.within hwithin₁).function) hkind hwithin₁.function
  have hstill : Leads (lastWriteOf x) F globals s s₁ d (· = d) :=
    Leads.still hready.current hready.blocks rfl
  refine hstill.trans (fun _ => hwithin₁) ?_
  rintro d₁ rfl
  obtain ⟨slot, hfound⟩ : ∃ slot, s₁.storage[(⟨y, scope⟩ : Symbol)]? = some slot := by
    rcases hslot with ⟨slot, hfound, -, -, rfl⟩ | ⟨-, -, rfl⟩
    · exact ⟨slot, hfound⟩
    · exact ⟨_, Std.TreeMap.getElem?_insert_self⟩
  rw [hready.address] at ht' ⊢
  exact trails_stored o₁ hv.ne_null rfl ht' hd hfound
    ((hready.this slot hfound).trans hready.address) hready.slotOf
    fun hne => hready.others x (Ne.symm hne)

/-- A block is allocated and stored to a variable, and then something is noted of its slot. -/
theorem trails_allocated {s₃ s₄ : State} {name : String} (hslots : SlotsNamed scope s₁.storage)
    (hopen : s₁.function.Open) (hfetching : Fetching scope [] s₁ s₃) (happends : Appends s₁ s₃)
    (hv : ∀ ty, v ≠ .null ty) (hstore : Runs (store v (.register name ty)) s₃ u s₄)
    (ht : Tracks x scope (s₄.withSlot ⟨y, scope⟩ slot) (if y = x then t.store kind else t))
    (hd : Marks F x scope s₁.storage t d) (haddress : slot.address = .register name ty)
    (hname : Draft.SlotOf y name) :
    Leads (lastWriteOf x) F globals s₁ (s₄.withSlot ⟨y, scope⟩ slot) d
      (Marks F x scope (s₄.withSlot ⟨y, scope⟩ slot).storage
        (if y = x then t.store kind else t)) := by
  have o₃ := happends.open hopen
  obtain ⟨-, hs₄⟩ := runs_store.1 hstore
  have hstorage : s₄.storage = s₁.storage := by rw [hs₄]; exact happends.storage
  refine (trails_fetching hslots hopen hfetching (by simp)).trans (fun hwithin => ?_) ?_
  · exact hstore.appends.within o₃ ⟨hwithin.function, hwithin.globals⟩
  · rintro d₃ rfl
    refine trails_stored o₃ hv (congrArg State.function hs₄) ht hd Std.TreeMap.getElem?_insert_self
      haddress hname
      fun hne => ?_
    show (s₄.storage.insert _ _)[(⟨x, scope⟩ : Symbol)]? = _
    rw [getElem?_insert_other s₄.storage (Ne.symm hne), hstorage]

/-- **A string variable gets a buffer.**  If its slot stays as it is, then the path has come through
an assignment to this slot before. -/
theorem trails_stringBuffer (hslots : SlotsNamed scope s.storage) (hopen : s.function.Open)
    (hbuffer : t.allows x (t.buffer y)) (h : Runs (stringBuffer ⟨y, scope⟩ n) s v s') :
    TrailsCode x globals F scope t (if y = x then t.store (.scalar .string) else t) s s' := by
  intro ht
  have ht' := ht.stringBuffer h
  refine ⟨ht', fun d hd => Leads.of_within fun hwithin => ?_⟩
  have hext : s.function.Extends F := ((keeps_stringBuffer hopen h).1.within hwithin).function
  -- Its buffer is loaded only if it has one.
  have hloads : ∀ slot, s.storage[(⟨y, scope⟩ : Symbol)]? = some slot →
    slot.kind = .scalar .string → y = x →
      t.loads := by
    rintro slot hslot hkind rfl
    obtain ⟨k, hk⟩ := ht.stands_of_slot hslot
    simpa [Trail.allows, Trail.buffer, hk, hkind] using hbuffer
  have hload : ∀ {slot : Slot} {old : Value} {s₁ : State}, s.storage[(⟨y, scope⟩ : Symbol)]? =
    some slot →
      slot.kind = .scalar .string → Runs (load slot.address) s old s₁ →
      Leads (lastWriteOf x) F globals s s₁ d (· = d) := by
    intro slot old s₁ hslot hkind hrun
    refine trails_fetching hslots hopen
      (Fetching.load (source_slot hslot (List.mem_singleton.mpr rfl)) hrun) ?_
    intro hx slot' name ty hslot' haddress last hlast
    exact ht.loads hd hext (hloads slot hslot hkind (List.mem_singleton.mp hx).symm) hslot'
      haddress hlast
  rcases runs_stringBuffer h with ⟨slot, hslot, hkind, hlength, hrun⟩ |
    ⟨slot, old, size, s₁, s₂, s₃, s₄, hslot, hkind, hrun, hsize, hrealloc, hstore, rfl⟩ |
    ⟨hlacks, size, s₁, s₂, s₃, s₄, hfirst, hsize, hmalloc, hstore, rfl⟩
  · refine (hload hslot hkind hrun).mono ?_
    rintro d' rfl
    rw [hrun.appends.storage]
    split
    · next heq =>
        subst heq
        obtain ⟨k, hk⟩ := ht.stands_of_slot hslot
        obtain ⟨name, ty, haddress, -⟩ := (hslots _ slot hslot rfl).address
        obtain ⟨other, hother, hslotOf⟩ := hd.sized slot n hslot hlength
        obtain ⟨last, hlast⟩ := LastStored.exists_of_mem hother hslotOf
        have hname : last = name :=
          ht.loads hd hext (hloads slot hslot hkind rfl) hslot haddress hlast
        rw [hname] at hlast
        obtain ⟨k?, hmem, -⟩ := hd.last
        refine ⟨⟨some k, ?_, name, ht.place hext hslot hk haddress, hlast⟩, hd.sized⟩
        simp only [Trail.store, hk, hkind, if_true]
        exact Finset.mem_image.mpr ⟨k?, hmem, rfl⟩
    · exact hd
  · have a₁ := hrun.appends
    have a₃ := hsize.appends.trans hrealloc.appends
    have o₁ := a₁.open hopen
    obtain ⟨name, ty, haddress, hname⟩ := (hslots _ slot hslot rfl).address
    have hv : ∀ ty, v ≠ .null ty := by
      obtain ⟨_, _, _, hcall⟩ := runs_bind.1 hrealloc
      rw [(runs_call.1 hcall).2.1]
      simp
    rw [haddress] at hstore
    refine (hload hslot hkind hrun).trans (fun hwithin => ?_) ?_
    · exact (a₃.trans hstore.appends).within o₁ ⟨hwithin.function, hwithin.globals⟩
    · rintro d₁ rfl
      rw [← a₁.storage] at hslots hd
      exact trails_allocated hslots o₁
        ((OnlyFetches.byteCount n _ _ _ hsize).trans (OnlyFetches.realloc old size _ _ _ hrealloc))
        a₃ hv hstore ht' hd haddress hname
  · obtain ⟨-, hs₁⟩ := runs_storeFirst.1 hfirst
    have a₃ := hsize.appends.trans hmalloc.appends
    have o₁ : s₁.function.Open := by rw [hs₁]; exact hopen
    have hstorage : s₁.storage = s.storage := by rw [hs₁]; rfl
    have hv : ∀ ty, v ≠ .null ty := by
      obtain ⟨_, _, _, hcall⟩ := runs_bind.1 hmalloc
      rw [(runs_call.1 hcall).2.1]
      simp
    have hstill : Leads (lastWriteOf x) F globals s s₁ d (· = d) :=
      Leads.still (by rw [hs₁]; rfl) (by rw [hs₁]; rfl) rfl
    refine hstill.trans (fun hwithin => ?_) ?_
    · exact (a₃.trans hstore.appends).within o₁ ⟨hwithin.function, hwithin.globals⟩
    · rintro d₁ rfl
      rw [← hstorage] at hslots hd
      exact trails_allocated hslots o₁
        ((OnlyFetches.byteCount n _ _ _ hsize).trans (OnlyFetches.malloc size _ _ _ hmalloc)) a₃ hv
        hstore ht' hd rfl (Draft.slotOf_freshName _ _)

end Lower

end Pseudocode
