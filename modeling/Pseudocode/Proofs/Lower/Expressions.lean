import Pseudocode.Proofs.Lower.Invariant

/-!
Expressions keep the invariant.

An expression is lowered to a value or an address that is visible in the current block.  Little is
said of its type, since the shapes in a tree need not agree with anything.  Where a value is used it
is fetched as a value of a given type (`Sound.fetch`), and that is where its type is settled: a
value of another type is converted, or code generation fails.
-/

namespace Pseudocode.Lower

open Ir

variable {op : BinaryOp} {ty want : Ty} {name : String}

/-- Is the value, or where it is to be found, visible? -/
def Operand.Known (defs : List (String × Ir.Ty)) : Operand → Prop
  | value v => v.Known defs
  | address ptr => ptr.Known defs

/-- The lowering of a part of an expression: it only appends, and keeps the invariant. -/
class SoundPart (scope : outParam Scope) (part : Lowering Operand) :
    Prop extends OnlyAppends part where
  sound : ∀ s o s', s.Sound scope → Runs part s o s' → s'.Sound scope ∧ o.Known s'.function.visible

theorem castOp?_converts {source target : Ir.Ty} {op : CastOp}
    (h : castOp? source target = some op) : op.Converts source target := by
  rw [castOp?.eq_def] at h
  split at h <;> simp only [Option.some.injEq, reduceCtorEq] at h <;> rw [← h] <;> exact ⟨rfl, rfl⟩

theorem arithOp?_ty {arith : ArithOp} (h : arithOp? ty op = some arith) :
    irTy? ty = some arith.ty := by
  rw [arithOp?.eq_def] at h
  split at h <;> simp only [Option.some.injEq, reduceCtorEq] at h <;> rw [← h] <;> rfl

theorem intern_bytes (m : ModuleDraft) (name? : Option String) (text : String) :
    ∃ g ∈ (m.intern name? text).2.globals.toList, (m.intern name? text).1 = g.address ∧
      g.bytes = utf8 text ++ [0] := by
  rw [ModuleDraft.intern.eq_def]
  dsimp only
  split
  · next g hfound =>
      obtain ⟨hg, hbytes⟩ := ModuleDraft.string?_eq_some hfound
      exact ⟨g, Array.mem_toList_iff.mpr hg, rfl, hbytes⟩
  · split <;> exact ⟨_, by simp, rfl, rfl⟩

theorem intern_address (m : ModuleDraft) (name? : Option String) (text : String) :
    ∃ name size, (m.intern name? text).1 = .global name (.ptr (.array size .i8)) := by
  obtain ⟨g, -, haddress, -⟩ := intern_bytes m name? text
  exact ⟨_, _, haddress⟩

/-- What is copied into a concatenation is so short that the sum of the lengths fits in a word. -/
theorem concatLength_of_runs {left right : Nat} {lhs rhs : Lowering Operand} {s s' : State}
    {v : Value} (h : Runs (concat (Shape.concatLength left right) left right lhs rhs) s v s') :
    Shape.concatLength left right = left - 1 + right := by
  simp only [concat, runs_bind] at h
  obtain ⟨_, _, -, _, _, -, _, _, -, _, _, -, _, _, hkept, _, _, -, _, _, -, _, _, -, _, _,
    hrest, -⟩ := h
  have hkeptSize := (runs_byteCount.1 hkept).1
  have hrestSize := (runs_byteCount.1 hrest).1
  rw [Shape.concatLength_eq_iff, UInt64.size]
  omega

namespace State.Sound

variable {scope : Scope} {s s' : State} {v : Value}

theorem interned (hs : s.Sound scope) (text : String) :
    State.Sound scope { s with module := (s.module.intern none text).2 } := by
  have happends := Appends.intern s none text
  refine hs.of_appends happends
    (hs.function.weaken (State.Allows.later happends.globals fun _ _ h => h)) ?_
  rw [ModuleDraft.intern.eq_def]
  dsimp only
  split
  · exact hs.stocked
  · refine ⟨hs.stocked.declarations, fun g hg => ?_, ?_⟩
    · rw [ModuleDraft.toList_addString]
      exact List.mem_append_left _ (hs.stocked.formats hg)
    · rw [ModuleDraft.toList_addString, List.map_append, hs.stocked.names, List.append_assoc,
        List.range_succ, List.map_append]
      rfl

theorem convert (hs : s.Sound scope) {value : Value} (hvalue : value.Known s.function.visible)
    (h : Runs (convert value want) s v s') :
    s'.Sound scope ∧ v.Known s'.function.visible ∧ irTy? want = some v.ty := by
  obtain ⟨target, htarget, ⟨rfl, rfl, rfl⟩ | ⟨op, hop, hcast⟩⟩ := runs_convert h
  · exact ⟨hs, hvalue, htarget⟩
  · obtain ⟨hs', hknown, hvty⟩ := hs.cast hvalue (castOp?_converts hop) hcast
    exact ⟨hs', hknown, by rw [hvty, htarget]⟩

variable {lhs rhs part : Lowering Operand}

/-- **A value that is fetched has the type that is asked for.** -/
theorem fetch (hs : s.Sound scope) [SoundPart scope part] (h : Runs (fetch part want) s v s') :
    s'.Sound scope ∧ v.Known s'.function.visible ∧ irTy? want = some v.ty := by
  obtain ⟨o, s₁, hrun, h⟩ := runs_bind.1 h
  obtain ⟨hs₁, hknown⟩ := SoundPart.sound s o s₁ hs hrun
  cases o with
  | value value => exact hs₁.convert hknown h
  | address ptr =>
    obtain ⟨value, s₂, hload, h⟩ := runs_bind.1 h
    obtain ⟨hs₂, hvalue, -⟩ := hs₁.load hknown hload
    exact hs₂.convert hvalue h

theorem fetch_both (hs : s.Sound scope) [SoundPart scope lhs] [SoundPart scope rhs]
    {left right : Value} {s₁ s₂ : State} (hleft : Runs (Lower.fetch lhs want) s left s₁)
    (hright : Runs (Lower.fetch rhs want) s₁ right s₂) :
    s₂.Sound scope ∧ (left.Known s₂.function.visible ∧ irTy? want = some left.ty) ∧
      right.Known s₂.function.visible ∧ irTy? want = some right.ty := by
  obtain ⟨hs₁, hleftKnown, hleftTy⟩ := hs.fetch hleft
  obtain ⟨hs₂, hrightKnown, hrightTy⟩ := hs₁.fetch hright
  have happends : Appends s₁ s₂ := hright.appends
  exact ⟨hs₂, ⟨hs₁.known_mono happends hleftKnown, hleftTy⟩, hrightKnown, hrightTy⟩

theorem compare (hs : s.Sound scope) [SoundPart scope lhs] [SoundPart scope rhs]
    (h : Runs (compare op ty lhs rhs) s v s') : s'.Sound scope ∧ v.Known s'.function.visible ∧
    v.ty = .i1 := by
  obtain ⟨left, s₁, hleft, h⟩ := runs_bind.1 h
  obtain ⟨right, s₂, hright, h⟩ := runs_bind.1 h
  obtain ⟨hs₂, ⟨hleftKnown, hleftTy⟩, hrightKnown, hrightTy⟩ := hs.fetch_both hleft hright
  cases ty with
  | int =>
    rw [irTy?, Option.some.injEq] at hleftTy hrightTy
    dsimp only at h
    split at h
    · exact hs₂.icmp hleftKnown hrightKnown hleftTy.symm hrightTy.symm h
    · exact absurd h not_runs_invalid
  | double =>
    rw [irTy?, Option.some.injEq] at hleftTy hrightTy
    dsimp only at h
    split at h
    · exact hs₂.fcmp hleftKnown hrightKnown hleftTy.symm hrightTy.symm h
    · exact absurd h not_runs_invalid
  | _ => exact absurd h not_runs_invalid

theorem calculate (hs : s.Sound scope) [SoundPart scope lhs] [SoundPart scope rhs]
    (h : Runs (calculate op ty lhs rhs) s v s') : s'.Sound scope ∧ v.Known s'.function.visible := by
  obtain ⟨left, s₁, hleft, h⟩ := runs_bind.1 h
  obtain ⟨right, s₂, hright, h⟩ := runs_bind.1 h
  obtain ⟨hs₂, ⟨hleftKnown, hleftTy⟩, hrightKnown, hrightTy⟩ := hs.fetch_both hleft hright
  split at h
  · next arith hop =>
    rw [arithOp?_ty hop, Option.some.injEq] at hleftTy hrightTy
    exact hs₂.arith hleftKnown hrightKnown hleftTy.symm hrightTy.symm h
  · exact absurd h not_runs_invalid

theorem negate (hs : s.Sound scope) [SoundPart scope part] (h : Runs (negate ty part) s v s') :
    s'.Sound scope ∧ v.Known s'.function.visible := by
  obtain ⟨value, s₁, hvalue, h⟩ := runs_bind.1 h
  obtain ⟨hs₁, hknown, hty⟩ := hs.fetch hvalue
  have hzero : (Value.i32 0).Known s₁.function.visible ∧
      (Value.double .negZero).Known s₁.function.visible := ⟨trivial, trivial⟩
  cases ty with
  | int =>
    rw [irTy?, Option.some.injEq] at hty
    have hvalueTy : value.ty = ArithOp.sub.ty := hty.symm
    exact hs₁.arith hzero.1 hknown rfl hvalueTy h
  | double =>
    rw [irTy?, Option.some.injEq] at hty
    have hvalueTy : value.ty = ArithOp.fsub.ty := hty.symm
    exact hs₁.arith hzero.2 hknown rfl hvalueTy h
  | _ => exact absurd h not_runs_invalid

theorem concat (hs : s.Sound scope) [SoundPart scope lhs] [SoundPart scope rhs]
    {length leftLength rightLength : Nat}
    (h : Runs (concat length leftLength rightLength lhs rhs) s v s') :
    s'.Sound scope ∧ v.Known s'.function.visible := by
  simp only [Lower.concat, runs_bind, runs_word, runs_pure] at h
  obtain ⟨left, s₁, hleft, right, s₂, hright, size, s₃, hsize, buffer, s₄, hmalloc, kept, s₅, hkept,
    _, s₆, hcopy,
    _, _, ⟨-, rfl, rfl⟩, tail, s₈, hoffset, rest, s₉, hrest, _, _, hcopyRest, rfl, rfl⟩ := h
  obtain ⟨hs₂, ⟨hleftKnown, hleftTy⟩, hrightKnown, hrightTy⟩ := hs.fetch_both hleft hright
  rw [irTy?, Option.some.injEq] at hleftTy hrightTy
  obtain ⟨hs₃, hsizeKnown, hsizeTy⟩ := hs₂.byteCount hsize
  obtain ⟨hs₄, hbufferKnown, hbufferTy⟩ := hs₃.malloc hsizeKnown hsizeTy hmalloc
  obtain ⟨hs₅, hkeptKnown, hkeptTy⟩ := hs₄.byteCount hkept
  -- Each operand has to be followed from where it is computed to where it is used.
  have a₃ := hsize.appends
  have a₄ := hmalloc.appends
  have a₅ := hkept.appends
  have a₆ := hcopy.appends
  have a₈ := hoffset.appends
  have a₉ := hrest.appends
  have a₁₀ := hcopyRest.appends
  have hs₆ := hs₅.memcpy (hs₄.known_mono a₅ hbufferKnown)
    (hs₂.known_mono (a₃.trans (a₄.trans a₅)) hleftKnown)
    hkeptKnown hbufferTy hleftTy.symm hkeptTy hcopy
  obtain ⟨hs₈, htailKnown, htailTy⟩ := hs₆.offset (w := .i32 ((leftLength - 1 : Nat) : Int))
    (hs₄.known_mono (a₅.trans a₆) hbufferKnown) trivial hoffset
  obtain ⟨hs₉, hrestKnown, hrestTy⟩ := hs₈.byteCount hrest
  have a₃₉ := a₃.trans (a₄.trans (a₅.trans (a₆.trans (a₈.trans a₉))))
  have hs₁₀ := hs₉.memcpy (hs₈.known_mono a₉ htailKnown) (hs₂.known_mono a₃₉ hrightKnown) hrestKnown
    (htailTy.trans hbufferTy) hrightTy.symm hrestTy hcopyRest
  exact ⟨hs₁₀, hs₄.known_mono (a₅.trans (a₆.trans (a₈.trans (a₉.trans a₁₀)))) hbufferKnown⟩

/-! ### Variables, elements and calls -/

theorem variableAddress (hs : s.Sound scope) (h : Runs (variableAddress ⟨name, scope⟩) s v s') :
    s'.Sound scope ∧ v.Known s'.function.visible := by
  obtain ⟨slot, _, hslot, -, rfl, rfl⟩ := runs_variableAddress h
  obtain ⟨_, _, _, hknown⟩ := hs.slot hslot
  exact ⟨hs, hknown⟩

/-- The address of an element is an address of values of the type of the array. -/
theorem elementAddress (hs : s.Sound scope) [SoundPart scope part]
    (h : Runs (elementAddress ⟨name, scope⟩ part) s v s') :
    s'.Sound scope ∧ v.Known s'.function.visible ∧
      ∃ slot ty t, s.storage[(⟨name, scope⟩ : Symbol)]? = some slot ∧ slot.kind = .array ty ∧
      irTy? ty = some t ∧
        v.ty = .ptr t := by
  obtain ⟨slot, ty, first, index, s₂, s₃, hslot, hkind, hload, hindex, hoffset⟩ :=
    runs_elementAddress h
  obtain ⟨t, hty, haddressTy, haddress⟩ := hs.slot hslot
  obtain ⟨hs₂, hfirst, hfirstTy⟩ := hs.load haddress hload
  obtain ⟨hs₃, hindexKnown, -⟩ := hs₂.fetch hindex
  have a₃ := hindex.appends
  obtain ⟨hs', hknown, hvty⟩ := hs₃.offset (hs₂.known_mono a₃ hfirst) hindexKnown hoffset
  rw [haddressTy, Ir.Ty.ptr.injEq] at hfirstTy
  rw [hkind, kindTy?, Option.map_eq_some_iff] at hty
  obtain ⟨u, hu, rfl⟩ := hty
  exact ⟨hs', hknown, slot, ty, u, hslot, hkind, hu, hvty.trans hfirstTy.symm⟩

end State.Sound

mutual

/-- **The operand of an expression is visible.** -/
theorem operand_sound (scope : Scope) (e : Expr) : SoundPart scope (operand scope e) := by
  refine ⟨?_⟩
  intro s o s' hs h
  cases e with
  | constant value shape =>
    cases value with
    | int value =>
      rw [operand] at h
      obtain ⟨rfl, rfl⟩ := runs_pure.1 h
      exact ⟨hs, trivial⟩
    | double value =>
      rw [operand] at h
      obtain ⟨rfl, rfl⟩ := runs_pure.1 h
      exact ⟨hs, trivial⟩
    | string text =>
      rw [operand] at h
      obtain ⟨global, s₁, hintern, h⟩ := runs_bind.1 h
      obtain ⟨v, hbyte, rfl⟩ := runs_bind_pure.1 h
      rw [runs_modifyGet, Prod.mk.injEq] at hintern
      obtain ⟨rfl, rfl⟩ := hintern
      obtain ⟨g, hg, haddress, -⟩ := intern_bytes s.module none text
      rw [haddress] at hbyte
      obtain ⟨hs', hknown, -⟩ := (hs.interned text).firstByte hg hbyte
      exact ⟨hs', hknown⟩
  | var name shape =>
    rw [operand] at h
    obtain ⟨v, haddress, rfl⟩ := runs_bind_pure.1 h
    exact hs.variableAddress haddress
  | element name index shape =>
    have := operand_sound scope index
    rw [operand] at h
    obtain ⟨v, haddress, rfl⟩ := runs_bind_pure.1 h
    obtain ⟨hs', hknown, -⟩ := hs.elementAddress haddress
    exact ⟨hs', hknown⟩
  | binary op lhs rhs shape =>
    have := operand_sound scope lhs
    have := operand_sound scope rhs
    rw [operand] at h
    split at h
    · obtain ⟨v, hv, rfl⟩ := runs_bind_pure.1 h
      obtain ⟨hs', hknown, -⟩ := hs.compare hv
      exact ⟨hs', hknown⟩
    · split at h
      · obtain ⟨v, hv, rfl⟩ := runs_bind_pure.1 h
        exact hs.concat hv
      · obtain ⟨v, hv, rfl⟩ := runs_bind_pure.1 h
        exact hs.calculate hv
  | negate e shape =>
    have := operand_sound scope e
    rw [operand] at h
    obtain ⟨v, hv, rfl⟩ := runs_bind_pure.1 h
    exact hs.negate hv
  | call name args ty =>
    rw [operand] at h
    obtain ⟨sub, s₁, hsub, h⟩ := runs_bind.1 h
    obtain ⟨vs, s₂, hargs, h⟩ := runs_bind.1 h
    obtain ⟨v, hcall, rfl⟩ := runs_bind_pure.1 h
    obtain ⟨hsub, hlen, rfl⟩ := runs_subroutineOf hsub
    obtain ⟨hs₂, hknown, htys⟩ := arguments_sound scope args sub.params s₁ s₂ vs hs hlen hargs
    have hfits := hs.subroutines name sub hsub
    have htypes : vs.map Value.ty = sub.signature.params := by
      have hsome : (vs.map Value.ty).map some = sub.signature.params.map some := by
        rw [← hfits.params, ← htys, List.map_map]
        rfl
      exact (List.map_inj_right fun a b hab => Option.some.inj hab).mp hsome
    have htakes : sub.signature.Takes vs := by
      refine ⟨htypes ▸ List.prefix_refl _, fun _ => ?_⟩
      rw [← htypes, List.length_map]
    have a₂ := hargs.appends
    obtain ⟨hs', hv, -⟩ :=
      hs₂.call (.inr ⟨sub, by rw [a₂.subroutines]; exact hsub, rfl⟩) hknown htakes hcall
    exact ⟨hs', hv⟩

/-- The arguments of a call are visible, and have the types that the parameters ask for. -/
theorem arguments_sound (scope : Scope) (es : List Expr) (tys : List Ty) (s s' : State)
    (vs : List Value)
    (hs : s.Sound scope) (hlen : es.length = tys.length)
    (h : Runs (arguments scope es tys) s vs s') :
    s'.Sound scope ∧ (∀ v ∈ vs, v.Known s'.function.visible) ∧
    vs.map (fun v => some v.ty) = tys.map irTy? := by
  cases es with
  | nil =>
    obtain ⟨rfl, rfl⟩ := runs_pure.1 h
    rw [List.length_nil, eq_comm, List.length_eq_zero_iff] at hlen
    exact ⟨hs, by simp, by simp [hlen]⟩
  | cons e es =>
    cases tys with
    | nil => simp at hlen
    | cons ty tys =>
      have := operand_sound scope e
      rw [arguments] at h
      obtain ⟨v, s₁, hv, h⟩ := runs_bind.1 h
      obtain ⟨rest, hrest, rfl⟩ := runs_bind_pure.1 h
      obtain ⟨hs₁, hknown, hty⟩ := hs.fetch hv
      obtain ⟨hs₂, hall, htys⟩ :=
        arguments_sound scope es tys s₁ s' rest hs₁ (by simpa using hlen) hrest
      have a₂ := hrest.appends
      refine ⟨hs₂, ?_, by simp [hty, htys]⟩
      intro w hw
      rcases List.mem_cons.mp hw with rfl | hw
      · exact hs₁.known_mono a₂ hknown
      · exact hall w hw

end

attribute [instance] operand_sound

namespace State.Sound

variable {scope : Scope} {s s' : State} {v : Value} {e : Expr}

theorem valueOf (hs : s.Sound scope) (h : Runs (valueOf scope e want) s v s') :
    s'.Sound scope ∧ v.Known s'.function.visible ∧ irTy? want = some v.ty :=
  hs.fetch h

theorem nonzero (hs : s.Sound scope) (h : Runs (truthOf.nonzero scope e) s v s') :
    s'.Sound scope ∧ v.Known s'.function.visible ∧ v.ty = .i1 := by
  obtain ⟨value, s₁, hvalue, h⟩ := runs_bind.1 h
  obtain ⟨hs₁, hknown, hty⟩ := hs.valueOf hvalue
  cases hety : e.ty with
  | int =>
    simp only [hety] at h
    rw [hety, irTy?, Option.some.injEq] at hty
    exact hs₁.icmp (w := .i32 0) hknown trivial hty.symm rfl h
  | double =>
    simp only [hety] at h
    rw [hety, irTy?, Option.some.injEq] at hty
    exact hs₁.fcmp (w := .double .zero) hknown trivial hty.symm rfl h
  | _ =>
    simp only [hety] at h
    exact absurd h not_runs_invalid

theorem truthOf (hs : s.Sound scope) (h : Runs (truthOf scope e) s v s') :
    s'.Sound scope ∧ v.Known s'.function.visible ∧ v.ty = .i1 := by
  rw [Lower.truthOf.eq_def] at h
  split at h
  · split at h
    · exact hs.compare h
    · exact hs.nonzero h
  · exact hs.nonzero h

end State.Sound

end Pseudocode.Lower
