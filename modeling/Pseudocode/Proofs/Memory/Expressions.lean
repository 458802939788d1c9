import Pseudocode.Proofs.Ir.Decoding.Words
import Pseudocode.Proofs.Memory.Strings

/-!
Copies in the code of an expression.

Code for an expression disturbs nothing (`Quiet`), and what it copies it writes into a block that it
has just allocated: the copies that a concatenation makes fill the block for the result, for that is
as large as the lengths of its operands say.  What is copied is there if the buffers of variables
are as large as the lengths that the expression was read with (`Expr.Copies`).
-/

namespace Pseudocode

variable {i : Instr} {ptr value size dest source base l r : Value} {signature : Signature}
  {ty want : Ty} {name : String}

namespace Lower

open Ir

variable {reads : Prop} {globals : List Global} {F : FunctionDraft} {scope : Scope}
  {lengths : Lengths} {s s₁ s₂ s' : State} {d d₁ : Memory} {v : Value}

/-! ### Quiet code -/

/-- The code between the two states is passed and disturbs nothing, and `R` holds behind it. -/
def Quiet (reads : Prop) (globals : List Global) (F : FunctionDraft) (s s' : State) (d : Memory)
    (R : Memory → Prop) : Prop :=
  Leads (copies reads globals) F globals s s' d fun d' => Undisturbed s d d' ∧ R d'

namespace Quiet

variable {P R : Memory → Prop}

theorem refl (s : State) (h : R d) : Quiet reads globals F s s d R :=
  Leads.refl ⟨Undisturbed.refl s d, h⟩

theorem mono (h : Quiet reads globals F s s' d P) (hR : ∀ d', Undisturbed s d d' → P d' → R d') :
    Quiet reads globals F s s' d R :=
  Leads.mono h fun d' hd' => ⟨hd'.1, hR d' hd'.1 hd'.2⟩

theorem trans (h₁ : Quiet reads globals F s s₁ d P) (hs : s.Placed F scope) (a₁ : Appends s s₁)
    (a₂ : Appends s₁ s')
    (h₂ : ∀ d₁, Undisturbed s d d₁ → P d₁ → Quiet reads globals F s₁ s' d₁ R) :
    Quiet reads globals F s s' d R := by
  refine Leads.trans h₁ (a₂.within (a₁.open hs.opened)) ?_
  rintro d₁ ⟨hd₁, hP⟩
  exact Leads.mono (h₂ d₁ hd₁ hP) fun d' hd' => ⟨hd₁.trans hs.sound a₁ hd'.1, hd'.2⟩

end Quiet

theorem copies_ok (h : ∀ dest? signature args, i ≠ .call dest? "memcpy" signature args)
    (d : Memory) : (copies reads globals).ok i d :=
  ⟨fun _ _ _ _ _ hi => absurd hi (h _ _ _), fun _ _ _ _ _ _ hi => absurd hi (h _ _ _)⟩

/-- An instruction is added that does nothing but put a result into the register that comes next. -/
theorem quiet_result (hs : s.Placed F scope) {c : Content} (hok : (copies reads globals).ok i d)
    (hstep : d.step i = d.set s.next c) (hc : ∀ name, c ≠ .slot name) :
    Quiet reads globals F s (s.emit [i]) d fun d' =>
      d'.registers s.next = c ∧ (reads → i.LoadsLast d.stored) := by
  refine Leads.emit hs.opened ⟨hok, fun hgoes => ?_⟩
  show Undisturbed s d (d.step i) ∧ (d.step i).registers s.next = c ∧ _
  rw [hstep]
  exact ⟨Undisturbed.set hs.sound d hc, if_pos rfl, hgoes⟩

/-- Is the value not the address of a slot? -/
def Plain (d : Memory) (v : Value) : Prop :=
  ∀ name, d.eval v ≠ .slot name

theorem Plain.undisturbed {d' : Memory} (h : Plain d v) (hv : v.Known s.function.visible)
    (hd : Undisturbed s d d') : Plain d' v := by
  intro name
  rw [hd.values v hv]
  exact h name

theorem quiet_unknown (hs : s.Placed F scope) (hok : (copies reads globals).ok i d)
    (hstep : d.step i = d.set s.next .unknown) (ty : Ir.Ty) :
    Quiet reads globals F s (s.emit [i]) d fun d' => Plain d' (.register s.next ty) := by
  refine (quiet_result hs hok hstep (by simp)).mono ?_
  rintro d' - ⟨hnext, -⟩ name
  show d'.registers s.next ≠ _
  rw [hnext]
  simp

/-! ### Steps -/

theorem quiet_load (hs : s.Placed F scope) (h : Runs (load ptr) s v s') (d : Memory) :
    Quiet reads globals F s s' d fun d' =>
      d'.eval v = d.read (d.eval ptr) ∧
      (reads → (Instr.load s.next v.ty ptr).LoadsLast d.stored) := by
  obtain ⟨ty, -, rfl, rfl⟩ := runs_load.1 h
  exact quiet_result hs (copies_ok (by simp) d) rfl (d.read_ne_slot _)

theorem quiet_cast (hs : s.Placed F scope) {op : CastOp} {target : Ir.Ty}
    (h : Runs (cast op value target) s v s') (d : Memory) :
    Quiet reads globals F s s' d fun d' =>
      d'.eval v = if op = .sext ∨ op = .bitcast then (d.eval value).copied else .unknown := by
  obtain ⟨rfl, rfl⟩ := runs_cast.1 h
  refine (quiet_result hs (copies_ok (by simp) d) rfl ?_).mono fun d' _ hd' => hd'.1
  intro name
  split
  · cases d.eval value <;> simp [Content.copied]
  · simp

theorem quiet_byteCount (hs : s.Placed F scope) {size : Nat} (h : Runs (byteCount size) s v s')
    (d : Memory) : Quiet reads globals F s s' d fun d' => d'.eval v = .number size := by
  obtain ⟨-, hcast⟩ := runs_byteCount.1 h
  exact (quiet_cast hs (runs_cast.2 hcast) d).mono fun d' _ hd' => hd'

theorem quiet_malloc (hs : s.Placed F scope) (h : Runs (malloc size) s v s') (d : Memory) :
    Quiet reads globals F s s' d fun d' =>
      d'.eval v = .block d.sizes.length 0 ∧ d'.sizes = d.sizes ++ [(d.eval size).size?] := by
  obtain ⟨-, rfl, rfl⟩ := runs_call.1 (runs_get_bind.1 h)
  refine Leads.emit hs.opened ⟨copies_ok (by simp) d, fun _ => ⟨?_, if_pos rfl, rfl⟩⟩
  exact Undisturbed.allocate hs.sound d (d.eval size)

/-- A call of something that does not allocate and is not given the address of a slot. -/
theorem step_call {callee : String} (hmalloc : callee ≠ "malloc") (hrealloc : callee ≠ "realloc")
    {args : List Value} (hargs : ∀ arg ∈ args, Plain d arg) (dest : String) :
    d.step (.call (some dest) callee signature args) = d.set dest .unknown := by
  have hcall : d.call (some dest) callee args = (d.expose args).set dest .unknown := by
    rw [Memory.call.eq_def]
    split
    · exact absurd rfl hmalloc
    · exact absurd rfl hrealloc
    · rfl
  have hexpose : d.expose args = d := by
    have hnone : ∀ name, ¬ args.any (fun arg => d.eval arg = .slot name) = true := by
      intro name hany
      obtain ⟨arg, harg, heval⟩ := List.any_eq_true.mp hany
      exact hargs arg harg name (of_decide_eq_true heval)
    simp only [Memory.expose, hnone, if_false, Bool.false_eq_true]
  show { d.call (some dest) callee args with stored := d.stored } = _
  rw [hcall, hexpose]
  rfl

/-- A copy of so many bytes that has room where it writes, and finds them where it reads. -/
theorem quiet_memcpy (hs : s.Placed F scope) {u : Unit} {n : Nat}
    (h : Runs (memcpy dest source size) s u s')
    (hsize : d.eval size = .number n) (hinto : d.Spans (d.eval dest) (.number n))
    (hfrom : reads → Copyable globals d (d.eval source) n) (hsource : Plain d source) :
    Quiet reads globals F s s' d fun _ => True := by
  obtain ⟨r, hcall, -⟩ := runs_bind_pure.1 (runs_get_bind.1 h)
  obtain ⟨-, rfl, rfl⟩ := runs_call.1 hcall
  have hplain : ∀ arg ∈ [dest, source, size], Plain d arg := by
    intro arg harg name
    simp only [List.mem_cons, List.not_mem_nil, or_false] at harg
    rcases harg with rfl | rfl | rfl
    · obtain ⟨b, offset, -, -, hblock, -⟩ := hinto
      rw [hblock]
      simp
    · exact hsource name
    · rw [hsize]
      simp
  have hok : (copies reads globals).ok
      (.call (some s.next) "memcpy" s.routines.memcpy [dest, source, size]) d := by
    refine ⟨?_, fun hreads => ?_⟩
    · rintro _ _ dest' source' size' hi
      simp only [Instr.call.injEq, List.cons.injEq, and_true, true_and] at hi
      obtain ⟨-, -, rfl, rfl, rfl⟩ := hi
      rw [hsize]
      exact hinto
    · rintro _ _ dest' source' size' hi
      simp only [Instr.call.injEq, List.cons.injEq, and_true, true_and] at hi
      obtain ⟨-, -, rfl, rfl, rfl⟩ := hi
      rw [hsize]
      exact hfrom hreads
  exact (quiet_unknown hs hok (step_call (by simp) (by simp) hplain _) .bytes).mono
    fun _ _ _ => trivial

theorem quiet_gep (hs : s.Placed F scope) {ty : Ir.Ty} {indices : List Value} {inbounds : Bool}
    (d : Memory) :
    Quiet reads globals F s (s.emit [.gep s.next ty base indices inbounds]) d fun d' =>
      d'.registers s.next = d.address base indices ∧ Plain d' (.register s.next ty) := by
  have hc : ∀ name, d.address base indices ≠ .slot name := by
    intro name
    rw [Memory.address]
    split
    · split <;> simp
    · simp
    · simp
  refine (quiet_result hs (copies_ok (by simp) d) rfl hc).mono
    fun d' _ hd' => ⟨hd'.1, fun name => ?_⟩
  show d'.registers s.next ≠ _
  rw [hd'.1]
  exact hc name

/-- The address so many bytes further on in a block. -/
theorem quiet_offset (hs : s.Placed F scope) {b : Nat} {n m : Int}
    (h : Runs (offset base (.i32 m)) s v s')
    (hbase : d.eval base = .block b n) (hty : base.ty = .bytes) :
    Quiet reads globals F s s' d fun d' => d'.eval v = .block b (n + m) := by
  obtain ⟨ty, -, rfl, rfl⟩ := runs_offset.1 h
  have haddress : d.address base [.i32 m] = .block b (n + m) := by
    rw [Memory.address, hbase]
    exact if_pos hty
  refine (quiet_gep hs d).mono fun d' _ hd' => ?_
  rw [← haddress]
  exact hd'.1

theorem quiet_firstByte (hs : s.Placed F scope) {size : Nat}
    (h : Runs (firstByte (.global name (.ptr (.array size .i8)))) s v s') (d : Memory) :
    Quiet reads globals F s s' d fun d' => d'.eval v = .constant name := by
  obtain ⟨rfl, rfl⟩ := (runs_firstByte rfl).1 h
  exact (quiet_gep hs d).mono fun d' _ hd' => hd'.1

/-! ### Blocks and copies -/

/-- Is the value the address of a block of this size that has not been given up? -/
def Room (n : Nat) (v : Value) (d : Memory) : Prop :=
  ∃ b, d.eval v = .block b 0 ∧ d.sizes[b]? = some (some n) ∧ b ∉ d.freed

namespace Room

variable {n m : Nat} {d' : Memory}

theorem undisturbed (h : Room n v d) (hv : v.Known s.function.visible) (hd : Undisturbed s d d') :
    Room n v d' := by
  obtain ⟨b, hb, hsize, hfreed⟩ := h
  exact ⟨b, by rw [hd.values v hv]; exact hb, getElem?_sizes hd.sizes hsize, by
    rw [hd.freed]; exact hfreed⟩

theorem spans (h : Room n v d) (hm : m ≤ n) : d.Spans (d.eval v) (.number m) := by
  obtain ⟨b, hb, hsize, hfreed⟩ := h
  exact ⟨b, 0, m, n, hb, rfl, hsize, Int.le_refl 0, Int.natCast_nonneg m, by omega, hfreed⟩

end Room

/-- Allocating a block of a known size.  It is a new one. -/
theorem quiet_block (reads : Prop) (globals : List Global) {n : Nat} (hs : s.Placed F scope)
    (hsize : Runs (byteCount n) s size s₁) (hmalloc : Runs (malloc size) s₁ v s') :
    s'.Placed F scope ∧ Appends s s' ∧ v.Known s'.function.visible ∧ v.ty = .bytes ∧
      ∀ d : Memory, (∀ b ∈ d.freed, b < d.sizes.length) → Quiet reads globals F s s' d fun d' =>
        Room n v d' ∧ ∀ b offset, d'.eval v = .block b offset → d.sizes.length ≤ b := by
  obtain ⟨hs₁, hknown₁, hty₁⟩ := hs.sound.byteCount hsize
  obtain ⟨hs', hknown, hty⟩ := hs₁.malloc hknown₁ hty₁ hmalloc
  have a₁ := hsize.appends
  have a₂ := hmalloc.appends
  have hp₁ := hs.of_appends a₁ hs₁
  refine ⟨hp₁.of_appends a₂ hs', a₁.trans a₂, hknown, hty, fun d hfreed => ?_⟩
  refine (quiet_byteCount hs hsize d).trans hs a₁ a₂ fun d₁ hd₁ hnumber => ?_
  refine (quiet_malloc hp₁ hmalloc d₁).mono fun d' hd' hblock => ?_
  obtain ⟨heval, hsizes⟩ := hblock
  have hle : d.sizes.length ≤ d₁.sizes.length := hd₁.sizes.length_le
  refine ⟨⟨d₁.sizes.length, heval, ?_, fun hmem => ?_⟩, fun b offset hb => ?_⟩
  · rw [hsizes, hnumber]
    simp [Content.size?]
  · rw [hd'.freed, hd₁.freed] at hmem
    exact absurd (hfreed _ hmem) (by omega)
  · rw [heval, Content.block.injEq] at hb
    omega

/-- Copying a known number of bytes. -/
theorem quiet_copy (reads : Prop) (globals : List Global) {n : Nat} {u : Unit}
    (hs : s.Placed F scope)
    (hsize : Runs (byteCount n) s size s₁) (hcopy : Runs (memcpy dest source size) s₁ u s')
    (hdest : dest.Known s.function.visible) (hsource : source.Known s.function.visible)
    (hdestTy : dest.ty = .bytes) (hsourceTy : source.ty = .bytes) :
    s'.Placed F scope ∧ Appends s s' ∧ ∀ d : Memory, d.Spans (d.eval dest) (.number n) →
      (reads → Copyable globals d (d.eval source) n) → Plain d source →
      Quiet reads globals F s s' d fun _ => True := by
  obtain ⟨hs₁, hknown₁, hty₁⟩ := hs.sound.byteCount hsize
  have a₁ := hsize.appends
  have a₂ := hcopy.appends
  have hs' := hs₁.memcpy (hs.sound.known_mono a₁ hdest) (hs.sound.known_mono a₁ hsource) hknown₁
    hdestTy hsourceTy hty₁ hcopy
  have hp₁ := hs.of_appends a₁ hs₁
  refine ⟨hp₁.of_appends a₂ hs', a₁.trans a₂, fun d hinto hfrom hplain => ?_⟩
  refine (quiet_byteCount hs hsize d).trans hs a₁ a₂ fun d₁ hd₁ hnumber => ?_
  refine quiet_memcpy hp₁ hcopy hnumber ?_ (fun hreads => ?_) (hplain.undisturbed hsource hd₁)
  · rw [hd₁.values dest hdest]
    exact hd₁.spans hinto
  · rw [hd₁.values source hsource]
    exact (hfrom hreads).undisturbed hd₁

/-! ### Operands -/

/-- What is known of the address of a string: the bytes of it can be copied, and it is not that of a
variable unless the expression is that variable. -/
structure Sourced (F : FunctionDraft) (globals : List Global) (lengths : Lengths) (e : Expr)
    (d : Memory) (c : Content) : Prop where
  copyable : ∀ n, e.Spans lengths n → Copyable globals d c n
  foreign : ∀ x, (∀ shape, e ≠ .var x shape) → Foreign F d x c

theorem Sourced.undisturbed {e : Expr} {d' : Memory} {c : Content}
    (h : Sourced F globals lengths e d c)
    (hd : Undisturbed s d d') : Sourced F globals lengths e d' c :=
  ⟨fun n hn => (h.copyable n hn).undisturbed hd, fun x hx => (h.foreign x hx).undisturbed hd⟩

/-- What is known of the value of an expression.  It is not the address of a slot, and if it is a
string, it can be copied. -/
structure Fetched (reads : Prop) (F : FunctionDraft) (globals : List Global) (lengths : Lengths)
    (e : Expr) (v : Value) (d : Memory) : Prop where
  plain : Plain d v
  sourced : reads → v.ty = .bytes → Sourced F globals lengths e d (d.eval v)

theorem Fetched.undisturbed {e : Expr} {d' : Memory} (h : Fetched reads F globals lengths e v d)
    (hv : v.Known s.function.visible) (hd : Undisturbed s d d') :
    Fetched reads F globals lengths e v d' := by
  refine ⟨h.plain.undisturbed hv hd, fun hreads hty => ?_⟩
  rw [hd.values v hv]
  exact (h.sourced hreads hty).undisturbed hd

/-- What is known of an operand.  If it is the address of a string, then that of a variable. -/
def Operand.Serves (reads : Prop) (F : FunctionDraft) (globals : List Global) (lengths : Lengths)
    (e : Expr) (o : Operand) (d : Memory) : Prop :=
  match o with
  | .value v => Fetched reads F globals lengths e v d
  | .address ptr => ptr.ty = .ptr .bytes → ∃ x shape name, e = .var x shape ∧
      ptr = .register name (.ptr .bytes) ∧ F.Buffer name ∧ Draft.SlotOf x name

/-- The lowering of a part of an expression is quiet. -/
def Careful (reads : Prop) (F : FunctionDraft) (globals : List Global) (scope : Scope)
    (lengths : Lengths) (e : Expr) (part : Lowering Operand) : Prop :=
  ∀ s o s' d, s.Placed F scope → HoldsStrings reads F scope s.storage lengths d → Runs part s o s' →
    Quiet reads globals F s s' d fun d' => o.Serves reads F globals lengths e d'

/-- **What is loaded from a slot for a string.**  On a path whose loads find what has been stored
last, either nothing has been stored to the variable, or its buffer has a size that an assignment
may have left. -/
theorem sourced_load {e : Expr} {x : String} {shape : Shape} {ty : Ir.Ty} {dest : String}
    (hd : HoldsStrings reads F scope s.storage lengths d) (hreads : reads) (he : e = .var x shape)
    (hname : F.Buffer name) (hx : Draft.SlotOf x name)
    (hlast : (Instr.load dest ty (.register name (.ptr .bytes))).LoadsLast d.stored) :
    Sourced F globals lengths e d ((d.slots name).readFrom name) := by
  have hstored : ∀ last, LastStored x d.stored last → last = name := hlast name x rfl hx
  have hforeign : ∀ y, (∀ shape, e ≠ .var y shape) → y ≠ x := by
    rintro y hy rfl
    exact hy shape he
  rcases hd.orderly.live name hname with ⟨slot?, hnowhere⟩ | ⟨b, hb, -, hfreed⟩
  · rw [hnowhere]
    refine ⟨fun n _ => Or.inr (Or.inr ⟨name, x, rfl, hx, ?_⟩), fun y hy => ⟨?_, ?_⟩⟩
    · intro other hother hslot
      obtain ⟨last, hlast'⟩ := LastStored.exists_of_mem hother hslot
      obtain ⟨b, n, hb, -⟩ := hd.last hreads x name hname (hstored last hlast' ▸ hlast')
      rw [hnowhere] at hb
      simp at hb
    · simp [Content.readFrom]
    · intro other hother hslot
      simp only [Content.readFrom, Content.nowhere.injEq, Option.some.injEq] at hother
      rw [← hother] at hslot
      exact hforeign y hy (hslot.unique hx)
  · rw [hb]
    refine ⟨fun n hn => Or.inl ?_, fun y hy => ⟨?_, ?_⟩⟩
    · have hsome : ∃ other ∈ d.stored, Draft.SlotOf x other := by
        by_contra hnone
        obtain ⟨slot?, hnowhere⟩ := hd.orderly.never x name hname hx fun other hother hslot =>
          hnone ⟨other, hother, hslot⟩
        rw [hb] at hnowhere
        simp at hnowhere
      obtain ⟨other, hother, hslot⟩ := hsome
      obtain ⟨last, hlast'⟩ := LastStored.exists_of_mem hother hslot
      obtain ⟨b', size, hb', hsize, hmem⟩ :=
        hd.last hreads x name hname (hstored last hlast' ▸ hlast')
      rw [hb, Content.block.injEq] at hb'
      rw [he] at hn
      have hle : n ≤ size := hn size hmem
      rw [← hb'.1] at hsize
      exact ⟨b, 0, n, size, rfl, rfl, hsize, Int.le_refl 0, Int.natCast_nonneg n, by omega, hfreed⟩
    · intro other b' offset hother hslot hb' hc
      simp only [Content.readFrom, Content.copied, Content.block.injEq] at hc
      rw [← hc.1] at hb'
      have hsame := hd.orderly.apart other name b hother hname hb' hb
      rw [hsame] at hslot
      exact hforeign y hy (hslot.unique hx)
    · simp [Content.readFrom, Content.copied]

theorem castOp?_numeric {source target : Ir.Ty} {op : CastOp}
    (h : castOp? source target = some op) : ¬ (op = .sext ∨ op = .bitcast) ∧ target ≠ .bytes := by
  rw [castOp?.eq_def] at h
  split at h <;> simp only [Option.some.injEq, reduceCtorEq] at h <;> rw [← h] <;>
    simp [Ir.Ty.bytes]

theorem quiet_convert {e : Expr} (hs : s.Placed F scope) (h : Runs (convert value want) s v s')
    (hvalue : Fetched reads F globals lengths e value d) :
    Quiet reads globals F s s' d (Fetched reads F globals lengths e v) := by
  obtain ⟨target, -, ⟨-, rfl, rfl⟩ | ⟨op, hop, hcast⟩⟩ := runs_convert h
  · exact Quiet.refl _ hvalue
  · obtain ⟨hplain, htarget⟩ := castOp?_numeric hop
    refine (quiet_cast hs hcast d).mono fun d' _ hd' => ⟨fun name => ?_, fun _ hbytes => ?_⟩
    · rw [hd', if_neg hplain]
      simp
    · obtain ⟨rfl, -⟩ := runs_cast.1 hcast
      exact absurd hbytes htarget

/-- What is loaded from an address that an operand gives. -/
theorem quiet_loaded {e : Expr} (hs : s.Placed F scope)
    (hd : HoldsStrings reads F scope s.storage lengths d)
    (h : Runs (load ptr) s v s')
    (hserves : (Operand.address ptr).Serves reads F globals lengths e d) :
    Quiet reads globals F s s' d (Fetched reads F globals lengths e v) := by
  obtain ⟨ty, hty, rfl, -⟩ := runs_load.1 h
  refine (quiet_load hs h d).mono fun d' hd' hloaded => ⟨fun name => ?_, fun hreads hbytes => ?_⟩
  · rw [hloaded.1]
    exact d.read_ne_slot _ name
  · have htys : ty = .bytes := hbytes
    obtain ⟨x, shape, name, he, hptr, hname, hx⟩ := hserves (by rw [hty, htys])
    have hlast := hloaded.2 hreads
    have heval : d.eval ptr = .slot name := by
      rw [hptr]
      exact hd.orderly.addresses name .bytes hname
    rw [hptr] at hlast
    rw [hloaded.1, heval]
    exact (sourced_load hd hreads he hname hx hlast).undisturbed hd'

variable {lhs rhs part : Lowering Operand} {e left right : Expr}

theorem quiet_fetch (hs : s.Placed F scope) (hd : HoldsStrings reads F scope s.storage lengths d)
    [SoundPart scope part] (hcare : Careful reads F globals scope lengths e part)
    (h : Runs (fetch part want) s v s') :
    Quiet reads globals F s s' d (Fetched reads F globals lengths e v) := by
  obtain ⟨o, s₁, hrun, h⟩ := runs_bind.1 h
  have a₁ := hrun.appends
  obtain ⟨hs₁, hknown⟩ := SoundPart.sound s o s₁ hs.sound hrun
  have hp₁ := hs.of_appends a₁ hs₁
  have hq := hcare s o s₁ d hs hd hrun
  cases o with
  | value value =>
    exact hq.trans hs a₁ h.appends fun d₁ _ hserves => quiet_convert hp₁ h hserves
  | address ptr =>
    obtain ⟨value, s₂, hload, h⟩ := runs_bind.1 h
    have a₂ := hload.appends
    have a₃ := h.appends
    have hp₂ := hp₁.of_appends a₂ (hs₁.load hknown hload).1
    have hq₂ := hq.trans hs a₁ a₂ fun d₁ hd₁ hserves =>
      quiet_loaded hp₁ (by rw [a₁.storage]; exact hd.undisturbed hs.whole hd₁) hload hserves
    exact hq₂.trans hs (a₁.trans a₂) a₃ fun d₂ _ hfetched => quiet_convert hp₂ h hfetched

theorem quiet_fetch_both (hs : s.Placed F scope)
    (hd : HoldsStrings reads F scope s.storage lengths d)
    [SoundPart scope lhs] [SoundPart scope rhs]
    (hleft : Careful reads F globals scope lengths left lhs)
    (hright : Careful reads F globals scope lengths right rhs)
    (hlrun : Runs (fetch lhs want) s l s₁) (hrrun : Runs (fetch rhs want) s₁ r s₂) :
    s₂.Placed F scope ∧ Appends s s₂ ∧ Quiet reads globals F s s₂ d fun d₂ =>
      Fetched reads F globals lengths left l d₂ ∧ Fetched reads F globals lengths right r d₂ := by
  obtain ⟨hs₁, hlKnown, -⟩ := hs.sound.fetch hlrun
  obtain ⟨hs₂, -, -⟩ := hs₁.fetch hrrun
  have a₁ := hlrun.appends
  have a₂ := hrrun.appends
  have hp₁ := hs.of_appends a₁ hs₁
  refine ⟨hp₁.of_appends a₂ hs₂, a₁.trans a₂, ?_⟩
  refine (quiet_fetch hs hd hleft hlrun).trans hs a₁ a₂ fun d₁ hd₁ hfetched => ?_
  have hholds : HoldsStrings reads F scope s₁.storage lengths d₁ := by
    rw [a₁.storage]
    exact hd.undisturbed hs.whole hd₁
  exact (quiet_fetch hp₁ hholds hright hrrun).mono fun d₂ hd₂ hfetched₂ =>
    ⟨hfetched.undisturbed hlKnown hd₂, hfetched₂⟩

/-! ### Operators -/

theorem quiet_compare {op : BinaryOp} (hs : s.Placed F scope)
    (hd : HoldsStrings reads F scope s.storage lengths d) [SoundPart scope lhs]
    [SoundPart scope rhs] (hleft : Careful reads F globals scope lengths left lhs)
    (hright : Careful reads F globals scope lengths right rhs)
    (h : Runs (compare op ty lhs rhs) s v s') :
    Quiet reads globals F s s' d fun d' => Plain d' v := by
  obtain ⟨l, s₁, hlrun, h⟩ := runs_bind.1 h
  obtain ⟨r, s₂, hrrun, h⟩ := runs_bind.1 h
  obtain ⟨hp₂, a₂, hq⟩ := quiet_fetch_both hs hd hleft hright hlrun hrrun
  cases ty with
  | int =>
    dsimp only at h
    split at h
    · refine hq.trans hs a₂ h.appends fun d₂ _ _ => ?_
      obtain ⟨rfl, rfl⟩ := runs_icmp.1 h
      exact quiet_unknown hp₂ (copies_ok (by simp) d₂) rfl _
    · exact absurd h not_runs_invalid
  | double =>
    dsimp only at h
    split at h
    · refine hq.trans hs a₂ h.appends fun d₂ _ _ => ?_
      obtain ⟨rfl, rfl⟩ := runs_fcmp.1 h
      exact quiet_unknown hp₂ (copies_ok (by simp) d₂) rfl _
    · exact absurd h not_runs_invalid
  | _ => exact absurd h not_runs_invalid

theorem quiet_arith (hs : s.Placed F scope) {op : ArithOp} (h : Runs (arith op l r) s v s')
    (d : Memory) : Quiet reads globals F s s' d fun d' => Plain d' v := by
  obtain ⟨rfl, rfl⟩ := runs_arith.1 h
  exact quiet_unknown hs (copies_ok (by simp) d) rfl _

theorem quiet_calculate {op : BinaryOp} (hs : s.Placed F scope)
    (hd : HoldsStrings reads F scope s.storage lengths d) [SoundPart scope lhs]
    [SoundPart scope rhs] (hleft : Careful reads F globals scope lengths left lhs)
    (hright : Careful reads F globals scope lengths right rhs)
    (h : Runs (calculate op ty lhs rhs) s v s') :
    v.ty ≠ .bytes ∧ Quiet reads globals F s s' d fun d' => Plain d' v := by
  obtain ⟨l, s₁, hlrun, h⟩ := runs_bind.1 h
  obtain ⟨r, s₂, hrrun, h⟩ := runs_bind.1 h
  obtain ⟨hp₂, a₂, hq⟩ := quiet_fetch_both hs hd hleft hright hlrun hrrun
  obtain ⟨-, ⟨-, hlty⟩, -⟩ := hs.sound.fetch_both hlrun hrrun
  split at h
  · next arith hop =>
    refine ⟨?_, hq.trans hs a₂ h.appends fun d₂ _ _ => quiet_arith hp₂ h d₂⟩
    obtain ⟨rfl, -⟩ := runs_arith.1 h
    rw [arithOp?_ty hop, Option.some.injEq] at hlty
    show l.ty ≠ _
    rw [← hlty]
    cases arith <;> simp [ArithOp.ty, Ir.Ty.bytes]
  · exact absurd h not_runs_invalid

theorem quiet_negate (hs : s.Placed F scope) (hd : HoldsStrings reads F scope s.storage lengths d)
    [SoundPart scope part] (hcare : Careful reads F globals scope lengths e part)
    (h : Runs (negate ty part) s v s') : v.ty ≠ .bytes ∧
    Quiet reads globals F s s' d fun d' => Plain d' v := by
  obtain ⟨value, s₁, hrun, h⟩ := runs_bind.1 h
  have a₁ := hrun.appends
  have hp₁ := hs.of_appends a₁ (hs.sound.fetch hrun).1
  have hq := quiet_fetch hs hd hcare hrun
  cases ty with
  | int =>
    refine ⟨?_, hq.trans hs a₁ h.appends fun d₁ _ _ => quiet_arith hp₁ h d₁⟩
    obtain ⟨rfl, -⟩ := runs_arith.1 h
    exact Ir.Ty.noConfusion
  | double =>
    refine ⟨?_, hq.trans hs a₁ h.appends fun d₁ _ _ => quiet_arith hp₁ h d₁⟩
    obtain ⟨rfl, -⟩ := runs_arith.1 h
    exact Ir.Ty.noConfusion
  | _ => exact absurd h not_runs_invalid

/-- What is known while a concatenation fills the block for its result.  The block is new, and the
right operand is still to be copied. -/
structure Filling (reads : Prop) (F : FunctionDraft) (globals : List Global) (lengths : Lengths)
    (length : Nat) (right : Expr) (buffer r : Value) (allocated : Nat) (d : Memory) : Prop where
  room : Room length buffer d
  new : ∀ b offset, d.eval buffer = .block b offset → allocated ≤ b
  fetched : Fetched reads F globals lengths right r d

theorem Filling.undisturbed {length allocated : Nat} {buffer : Value} {d' : Memory}
    (h : Filling reads F globals lengths length right buffer r allocated d)
    (hbuffer : buffer.Known s.function.visible) (hr : r.Known s.function.visible)
    (hd : Undisturbed s d d') :
    Filling reads F globals lengths length right buffer r allocated d' := by
  refine ⟨h.room.undisturbed hbuffer hd, ?_, h.fetched.undisturbed hr hd⟩
  rw [hd.values buffer hbuffer]
  exact h.new

/-- **A concatenation writes inside of the block that it allocates**, and reads no more of its
operands than is there. -/
theorem quiet_concat {length : Nat} (hs : s.Placed F scope)
    (hd : HoldsStrings reads F scope s.storage lengths d) [SoundPart scope lhs]
    [SoundPart scope rhs]
    (hleft : Careful reads F globals scope lengths left lhs)
    (hright : Careful reads F globals scope lengths right rhs)
    (hlength : length = Shape.concatLength left.length right.length)
    (hspans : reads → left.Spans lengths (left.length - 1) ∧ right.Spans lengths right.length)
    (h : Runs (concat length left.length right.length lhs rhs) s v s') :
    Quiet reads globals F s s' d fun d' =>
      Room length v d' ∧ ∀ b offset, d'.eval v = .block b offset → d.sizes.length ≤ b := by
  have hsum : length = left.length - 1 + right.length := by
    rw [hlength] at h ⊢
    exact concatLength_of_runs h
  simp only [concat, runs_bind, runs_word, runs_pure] at h
  obtain ⟨l, s₁, hlrun, r, s₂, hrrun, size, s₃, hsize, _, s₄, hmalloc, kept, s₅, hkept, _,
    s₆, hcopy,
    _, _, ⟨-, rfl, rfl⟩, tail, s₈, hoffset, rest, s₉, hrest, _, _, hcopyRest, rfl, rfl⟩ := h
  obtain ⟨hs₂, ⟨hlKnown, hlTy⟩, hrKnown, hrTy⟩ := hs.sound.fetch_both hlrun hrrun
  rw [irTy?, Option.some.injEq] at hlTy hrTy
  obtain ⟨hp₂, a₂, q₂⟩ := quiet_fetch_both hs hd hleft hright hlrun hrrun
  obtain ⟨hp₄, a₄, hv₄, hvTy, hblock⟩ := quiet_block reads globals hp₂ hsize hmalloc
  have hr₄ := hs₂.known_mono a₄ hrKnown
  obtain ⟨hp₆, a₆, hcopied⟩ :=
    quiet_copy reads globals hp₄ hkept hcopy hv₄ (hs₂.known_mono a₄ hlKnown) hvTy hlTy.symm
  have hv₆ := hp₄.sound.known_mono a₆ hv₄
  have hr₆ := hp₄.sound.known_mono a₆ hr₄
  have a₈ := hoffset.appends
  obtain ⟨hs₈, htail, htailTy⟩ :=
    hp₆.sound.offset (w := .i32 ((left.length - 1 : Nat) : Int)) hv₆ trivial hoffset
  have hr₈ := hp₆.sound.known_mono a₈ hr₆
  obtain ⟨hp₁₀, a₁₀, hcopiedRest⟩ :=
    quiet_copy reads globals (hp₆.of_appends a₈ hs₈) hrest hcopyRest htail hr₈
    (htailTy.trans hvTy) hrTy.symm
  have q₄ := q₂.trans hs a₂ a₄ (R := fun d' => Fetched reads F globals lengths left l d' ∧
      Filling reads F globals lengths length right v r d.sizes.length d') fun d₂ hd₂ hfetched => by
    refine (hblock d₂ (hd.undisturbed hs.whole hd₂).orderly.freed).mono fun d₄ hd₄ hroom => ?_
    refine ⟨hfetched.1.undisturbed hlKnown hd₄, hroom.1, fun b offset hb => ?_,
      hfetched.2.undisturbed hrKnown hd₄⟩
    exact Nat.le_trans hd₂.sizes.length_le (hroom.2 b offset hb)
  have q₆ := q₄.trans hs (a₂.trans a₄) a₆ fun d₄ _ hfill => by
    refine (hcopied d₄ (hfill.2.room.spans ?_) (fun hreads => ?_) hfill.1.plain).mono
      fun d₆ hd₆ _ =>
      hfill.2.undisturbed hv₄ hr₄ hd₆
    · omega
    · exact (hfill.1.sourced hreads hlTy.symm).copyable _ (hspans hreads).1
  have q₈ := q₆.trans hs ((a₂.trans a₄).trans a₆) a₈
    (R := fun d' => d'.Spans (d'.eval tail) (.number right.length) ∧
      Filling reads F globals lengths length right v r d.sizes.length d') fun d₆ _ hfill => by
    obtain ⟨b, hb, hsize, hfreed⟩ := hfill.room
    refine (quiet_offset hp₆ hoffset hb hvTy).mono
      fun d₈ hd₈ htail => ⟨?_, hfill.undisturbed hv₆ hr₆ hd₈⟩
    rw [htail]
    refine hd₈.spans ⟨b, _, _, length, rfl, rfl, hsize, by omega, by omega, ?_, hfreed⟩
    omega
  refine q₈.trans hs (((a₂.trans a₄).trans a₆).trans a₈) a₁₀ fun d₈ _ hfill => ?_
  refine (hcopiedRest d₈ hfill.1 (fun hreads => ?_) hfill.2.fetched.plain).mono fun d' hd' _ => ?_
  · exact (hfill.2.fetched.sourced hreads hrTy.symm).copyable _ (hspans hreads).2
  · have hfill' := hfill.2.undisturbed (hp₆.sound.known_mono a₈ hv₆) hr₈ hd'
    exact ⟨hfill'.room, hfill'.new⟩

/-! ### Constant strings -/

theorem intern_global (m : ModuleDraft) (name? : Option String) (text : String) :
    ∃ g ∈ (m.intern name? text).2.globals.toList, (m.intern name? text).1 = g.address ∧
      g.bytes.length = text.utf8ByteSize + 1 := by
  obtain ⟨g, hg, haddress, hbytes⟩ := intern_bytes m name? text
  refine ⟨g, hg, haddress, ?_⟩
  rw [hbytes, List.length_append, length_utf8]
  rfl

theorem careful_constant {text : String} {shape : Shape}
    (hshape : shape.length = text.utf8ByteSize + 1) :
    Careful reads F globals scope lengths (.constant (.string text) shape)
      (operand scope (.constant (.string text) shape)) := by
  intro s o s' d hs hd h
  rw [operand] at h
  obtain ⟨global, s₁, hintern, h⟩ := runs_bind.1 h
  obtain ⟨v, hbyte, rfl⟩ := runs_bind_pure.1 h
  rw [runs_modifyGet, Prod.mk.injEq] at hintern
  obtain ⟨rfl, rfl⟩ := hintern
  have a₁ := Appends.intern s none text
  have hp₁ := hs.of_appends a₁ (hs.sound.interned text)
  have a₂ := hbyte.appends
  obtain ⟨g, hg, haddress, hbytes⟩ := intern_global s.module none text
  rw [haddress] at hbyte
  have hstill : Quiet reads globals F s { s with module := (s.module.intern none text).2 } d
    fun _ => True :=
    Leads.still rfl rfl ⟨Undisturbed.refl s d, trivial⟩
  refine Leads.of_within fun hwithin => hstill.trans hs a₁ a₂ fun d₁ _ _ => ?_
  refine (quiet_firstByte hp₁ hbyte d₁).mono fun d' _ heval => ⟨fun name => ?_, fun _ _ => ?_⟩
  · rw [heval]
    simp
  · rw [heval]
    refine ⟨fun n hn => Or.inr (Or.inl ⟨g, ?_, n, rfl, rfl, Int.natCast_nonneg n, ?_⟩),
      fun x _ => ⟨by simp, by simp⟩⟩
    · exact hwithin.globals (a₂.globals.subset hg)
    · have hle : n ≤ shape.length := hn
      omega

/-! ### Expressions -/

theorem irTy?_ne_bytes {t : Ir.Ty} (hty : ty ≠ .string) (h : irTy? ty = some t) : t ≠ .bytes := by
  cases ty <;> simp [irTy?] at h hty <;> rw [← h] <;> simp [Ir.Ty.bytes]

/-- The address of an element of an array goes into a counted register, and is the address of a
number. -/
theorem quiet_elementAddress (hs : s.Placed F scope)
    (hd : HoldsStrings reads F scope s.storage lengths d)
    [SoundPart scope part] (hcare : Careful reads F globals scope lengths e part)
    (h : Runs (elementAddress ⟨name, scope⟩ part) s v s') :
    ∃ k ty, v = .register (Draft.tempName k) ty ∧ ty ≠ .ptr .bytes ∧
      Quiet reads globals F s s' d fun d' => Plain d' v := by
  obtain ⟨-, -, slot, ty, t, hslot, hkind, ht, hvty⟩ := hs.sound.elementAddress h
  obtain ⟨register, rty, hplaced⟩ := hs.slots name slot hslot
  have hnumeric : t ≠ .bytes :=
    irTy?_ne_bytes (Ty.ne_string_of_isNumeric (hplaced.array ty hkind)) ht
  obtain ⟨_, _, first, index, s₂, s₃, hfound, -, hload, hindex, hoffset⟩ := runs_elementAddress h
  obtain ⟨_, _, _, haddress⟩ := hs.sound.slot hfound
  have a₂ := hload.appends
  have a₃ := hindex.appends
  have a₄ := hoffset.appends
  have hp₂ := hs.of_appends a₂ (hs.sound.load haddress hload).1
  have hp₃ := hp₂.of_appends a₃ (hp₂.sound.fetch hindex).1
  obtain ⟨oty, -, rfl, rfl⟩ := runs_offset.1 hoffset
  have hoty : oty = t := Ir.Ty.ptr.inj hvty
  refine ⟨s₃.function.nextTemp, _, rfl, by rw [hoty, ne_eq, Ir.Ty.ptr.injEq]; exact hnumeric, ?_⟩
  have q₃ := (quiet_load hs hload d).trans hs a₂ a₃ fun d₂ hd₂ _ =>
    quiet_fetch hp₂ (by rw [a₂.storage]; exact hd.undisturbed hs.whole hd₂) hcare hindex
  exact q₃.trans hs (a₂.trans a₃) a₄ fun d₃ _ _ => (quiet_gep hp₃ d₃).mono fun d' _ hd' => hd'.2

/-- A value that is no string serves for any expression. -/
theorem Fetched.of_plain {d' : Memory} (h : Plain d' v) (hty : v.ty ≠ .bytes) (e : Expr) :
    Fetched reads F globals lengths e v d' :=
  ⟨h, fun _ hbytes => absurd hbytes hty⟩

/-- The address of a new block is not that of a variable. -/
theorem Fetched.of_new {d' : Memory} {n : Nat} (hd : d.Orderly F) (hd' : Undisturbed s d d')
    (hroom : Room n v d') (hnew : ∀ b offset, d'.eval v = .block b offset → d.sizes.length ≤ b)
    (hspans : ∀ m, e.Spans lengths m → m ≤ n) : Fetched reads F globals lengths e v d' := by
  obtain ⟨b, hb, -, -⟩ := id hroom
  refine ⟨fun name => by rw [hb]; simp,
    fun _ _ => ⟨fun m hm => Or.inl (hroom.spans (hspans m hm)), fun x _ => ?_⟩⟩
  refine ⟨fun name b' offset hname _ hheld heval => ?_, by rw [hb]; simp⟩
  rw [hd'.slots] at hheld
  exact absurd (hd.held hname hheld).1 (Nat.not_lt.mpr (hnew b' offset heval))

theorem quiet_call {args : List Value} (hs : s.Placed F scope) (hname : name ∉ Routines.reserved)
    (h : Runs (call name signature args) s v s') (hargs : ∀ arg ∈ args, Plain d arg) :
    Quiet reads globals F s s' d fun d' => Plain d' v := by
  obtain ⟨-, rfl, rfl⟩ := runs_call.1 h
  have hne : ∀ callee ∈ Routines.reserved, name ≠ callee := by
    rintro callee hcallee rfl
    exact hname hcallee
  refine quiet_unknown hs (copies_ok ?_ d) (step_call (hne _ ?_) (hne _ ?_) hargs _) _
  · intro dest? signature' args' hi
    rw [Instr.call.injEq] at hi
    exact hne "memcpy" (by simp [Routines.reserved]) hi.2.1
  · simp [Routines.reserved]
  · simp [Routines.reserved]

mutual

/-- **Code for an expression is quiet.** -/
theorem operand_careful (reads : Prop) (F : FunctionDraft) (globals : List Global) (scope : Scope)
    (lengths : Lengths)
    (e : Expr) (he : e.Copies reads lengths) :
    Careful reads F globals scope lengths e (operand scope e) := by
  cases e with
  | constant value shape =>
    cases value with
    | int value =>
      intro s o s' d hs hd h
      rw [operand] at h
      obtain ⟨rfl, rfl⟩ := runs_pure.1 h
      exact Quiet.refl _
        (Fetched.of_plain (fun name => by simp [Value.i32, Memory.eval]) Ir.Ty.noConfusion _)
    | double value =>
      intro s o s' d hs hd h
      rw [operand] at h
      obtain ⟨rfl, rfl⟩ := runs_pure.1 h
      exact Quiet.refl _ (Fetched.of_plain (fun name => by simp [Memory.eval]) Ir.Ty.noConfusion _)
    | string text => exact careful_constant he
  | var name shape =>
    intro s o s' d hs hd h
    rw [operand] at h
    obtain ⟨v, haddress, rfl⟩ := runs_bind_pure.1 h
    obtain ⟨slot, _, hslot, -, rfl, rfl⟩ := runs_variableAddress haddress
    refine Quiet.refl _ fun hty => ?_
    obtain ⟨register, t, hplaced⟩ := hs.slots name slot hslot
    have hbytes : t = .bytes := by
      rw [hplaced.address] at hty
      exact Ir.Ty.ptr.inj hty
    rw [hbytes] at hplaced
    exact ⟨name, shape, register, rfl, hplaced.address, hplaced.reserved, hplaced.slotOf⟩
  | element name index shape =>
    intro s o s' d hs hd h
    rw [operand] at h
    obtain ⟨v, haddress, rfl⟩ := runs_bind_pure.1 h
    obtain ⟨k, ty, hv, hty, hq⟩ := quiet_elementAddress hs hd
      (operand_careful reads F globals scope lengths index he) haddress
    refine hq.mono fun d' _ _ hbytes => ?_
    rw [hv] at hbytes
    exact absurd hbytes hty
  | binary op lhs rhs shape =>
    intro s o s' d hs hd h
    obtain ⟨hlhs, hrhs, hstring⟩ := he
    have hleft := operand_careful reads F globals scope lengths lhs hlhs
    have hright := operand_careful reads F globals scope lengths rhs hrhs
    rw [operand] at h
    split at h
    · obtain ⟨v, hv, rfl⟩ := runs_bind_pure.1 h
      obtain ⟨-, -, hty⟩ := hs.sound.compare hv
      exact (quiet_compare hs hd hleft hright hv).mono fun d' _ hplain =>
        Fetched.of_plain hplain (by rw [hty]; exact Ir.Ty.noConfusion) _
    · split at h
      · next hcomparison hty =>
        obtain ⟨v, hv, rfl⟩ := runs_bind_pure.1 h
        obtain ⟨hlength, hspans⟩ := hstring hty
        exact (quiet_concat hs hd hleft hright hlength hspans hv).mono fun d' hd' hroom =>
          Fetched.of_new hd.orderly hd' hroom.1 hroom.2 fun _ hn => hn
      · obtain ⟨v, hv, rfl⟩ := runs_bind_pure.1 h
        obtain ⟨hty, hq⟩ := quiet_calculate hs hd hleft hright hv
        exact hq.mono fun d' _ hplain => Fetched.of_plain hplain hty _
  | negate e shape =>
    intro s o s' d hs hd h
    rw [operand] at h
    obtain ⟨v, hv, rfl⟩ := runs_bind_pure.1 h
    obtain ⟨hty, hq⟩ := quiet_negate hs hd
      (operand_careful reads F globals scope lengths e he) hv
    exact hq.mono fun d' _ hplain => Fetched.of_plain hplain hty _
  | call name args ty =>
    intro s o s' d hs hd h
    rw [operand] at h
    obtain ⟨sub, s₁, hsub, h⟩ := runs_bind.1 h
    obtain ⟨vs, s₂, hargs, h⟩ := runs_bind.1 h
    obtain ⟨v, hcall, rfl⟩ := runs_bind_pure.1 h
    obtain ⟨hsub, hlen, rfl⟩ := runs_subroutineOf hsub
    obtain ⟨hfree, hnumeric, -⟩ := hs.subroutines name sub hsub
    have hret : sub.signature.ret ≠ .bytes := irTy?_ne_bytes (Ty.ne_string_of_isNumeric hnumeric)
      (hs.sound.subroutines name sub hsub).ret
    have a₂ := hargs.appends
    have a₃ := hcall.appends
    have hp₂ := hs.of_appends a₂
      (arguments_sound scope args sub.params _ s₂ vs hs.sound hlen hargs).1
    have hty : v.ty ≠ .bytes := by
      obtain ⟨-, rfl, -⟩ := runs_call.1 hcall
      exact hret
    refine (arguments_quiet reads F globals scope lengths args he sub.params _ s₂ vs d hs hd
      hargs).trans hs a₂ a₃
      fun d₂ _ hplain => ?_
    exact (quiet_call hp₂ hfree hcall hplain).mono fun d' _ hv => Fetched.of_plain hv hty _

theorem arguments_quiet (reads : Prop) (F : FunctionDraft) (globals : List Global) (scope : Scope)
    (lengths : Lengths)
    (es : List Expr) (hes : copiesAll reads lengths es) (tys : List Ty) (s s' : State)
    (vs : List Value) (d : Memory)
    (hs : s.Placed F scope) (hd : HoldsStrings reads F scope s.storage lengths d)
    (h : Runs (arguments scope es tys) s vs s') :
    Quiet reads globals F s s' d fun d' => ∀ v ∈ vs, Plain d' v := by
  cases es with
  | nil =>
    obtain ⟨rfl, rfl⟩ := runs_pure.1 h
    exact Quiet.refl _ (by simp)
  | cons e es =>
    cases tys with
    | nil =>
      obtain ⟨rfl, rfl⟩ := runs_pure.1 h
      exact Quiet.refl _ (by simp)
    | cons ty tys =>
      rw [arguments] at h
      obtain ⟨v, s₁, hv, h⟩ := runs_bind.1 h
      obtain ⟨rest, hrest, rfl⟩ := runs_bind_pure.1 h
      obtain ⟨hs₁, hknown, -⟩ := hs.sound.fetch hv
      have a₁ := hv.appends
      have a₂ := hrest.appends
      have hp₁ := hs.of_appends a₁ hs₁
      have q₁ := quiet_fetch hs hd (operand_careful reads F globals scope lengths e hes.1) hv
      refine q₁.trans hs a₁ a₂ fun d₁ hd₁ hfetched => ?_
      have hholds : HoldsStrings reads F scope s₁.storage lengths d₁ := by
        rw [a₁.storage]
        exact hd.undisturbed hs.whole hd₁
      refine (arguments_quiet reads F globals scope lengths es hes.2 tys s₁ _ rest d₁ hp₁ hholds
        hrest).mono
        fun d' hd' hplain => ?_
      intro w hw
      rcases List.mem_cons.mp hw with rfl | hw
      · exact hfetched.plain.undisturbed hknown hd'
      · exact hplain w hw

end

theorem quiet_valueOf (globals : List Global) (hs : s.Placed F scope)
    (hd : HoldsStrings reads F scope s.storage lengths d) (he : e.Copies reads lengths)
    (h : Runs (valueOf scope e want) s v s') :
    Quiet reads globals F s s' d (Fetched reads F globals lengths e v) :=
  quiet_fetch hs hd (operand_careful reads F globals scope lengths e he) h

theorem quiet_nonzero (hs : s.Placed F scope) (hd : HoldsStrings reads F scope s.storage lengths d)
    (he : e.Copies reads lengths) (h : Runs (truthOf.nonzero scope e) s v s') :
    Quiet reads globals F s s' d fun _ => True := by
  obtain ⟨value, s₁, hvalue, h⟩ := runs_bind.1 h
  have a₁ := hvalue.appends
  have hp₁ := hs.of_appends a₁ (hs.sound.valueOf hvalue).1
  have q₁ := quiet_valueOf globals hs hd he hvalue
  cases hety : e.ty with
  | int =>
    simp only [hety] at h
    refine q₁.trans hs a₁ h.appends fun d₁ _ _ => ?_
    obtain ⟨rfl, rfl⟩ := runs_icmp.1 h
    exact (quiet_unknown hp₁ (copies_ok (by simp) d₁) rfl .i1).mono fun _ _ _ => trivial
  | double =>
    simp only [hety] at h
    refine q₁.trans hs a₁ h.appends fun d₁ _ _ => ?_
    obtain ⟨rfl, rfl⟩ := runs_fcmp.1 h
    exact (quiet_unknown hp₁ (copies_ok (by simp) d₁) rfl .i1).mono fun _ _ _ => trivial
  | _ =>
    simp only [hety] at h
    exact absurd h not_runs_invalid

theorem quiet_truthOf (hs : s.Placed F scope) (hd : HoldsStrings reads F scope s.storage lengths d)
    (he : e.Copies reads lengths) (h : Runs (truthOf scope e) s v s') :
    Quiet reads globals F s s' d fun _ => True := by
  rw [Lower.truthOf.eq_def] at h
  split at h
  · split at h
    · exact (quiet_compare hs hd
        (operand_careful reads F globals scope lengths _ he.1)
        (operand_careful reads F globals scope lengths _ he.2.1) h).mono fun _ _ _ => trivial
    · exact quiet_nonzero hs hd he h
  · exact quiet_nonzero hs hd he h

end Lower

end Pseudocode
