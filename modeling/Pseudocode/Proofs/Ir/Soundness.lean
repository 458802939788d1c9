import Pseudocode.Proofs.Ir.Branching

/-!
Drafts that become well-formed functions.

`FunctionDraft.Sound` is the invariant of a function in the making.  It says of every instruction
that its types agree and that what it uses has been defined: by the parameters and the prologue,
which are visible in every block, or by an instruction before it in the same block.  Each way in
which a draft changes keeps it, given that the new instruction fits the place where it is added
(`Sound.extend`), and from it the two properties of the finished function are read off
(`Sound.wellTyped`, `Sound.dominated`).

A register is visible under a name together with its type.  That makes one condition of two: the
name is defined, and it is used at the type that it is defined with.
-/

namespace Pseudocode.Ir

variable {defs defs' : List (String × Ty)} {v truth : Value} {i : Instr} {is : List Instr}
  {b : Block} {k place : Nat} {d : String × Ty} {name : String} {allows : Instr → Prop}

/-- Is the value anything but the address of a constant string? -/
def Value.Local : Value → Prop
  | global _ _ => False
  | _ => True

/-- Is the value defined by one of these, or a number?  The pointer that points nowhere is used in
the setup only, and the address of a string only by the instruction that finds its first byte. -/
def Value.Known (defs : List (String × Ty)) : Value → Prop
  | register name ty => (name, ty) ∈ defs
  | int _ _ => True
  | double _ => True
  | _ => False

theorem Value.Known.mono (h : v.Known defs) (hsub : ∀ d ∈ defs, d ∈ defs') : v.Known defs' := by
  cases v with
  | register name ty => exact hsub _ h
  | _ => exact h

theorem Value.Known.local (h : v.Known defs) : v.Local := by
  cases v with
  | global name ty => exact h
  | _ => trivial

/-- Is the value a number? -/
def Value.Constant : Value → Prop
  | int _ _ => True
  | double _ => True
  | _ => False

theorem Value.Constant.known (h : v.Constant) (defs : List (String × Ty)) : v.Known defs := by
  cases v with
  | int value ty => trivial
  | double value => trivial
  | register name ty => exact h.elim
  | global name ty => exact h.elim
  | null ty => exact h.elim

/-- Can the instruction stand where these registers are visible, and is it one of those that are
allowed? -/
structure Instr.Fits (allows : Instr → Prop) (defs : List (String × Ty)) (i : Instr) : Prop where
  typed : i.WellTyped
  known : ∀ v ∈ i.operands, v.Local → v.Known defs
  noSlot : ∀ dest ty, i ≠ .alloca dest ty
  allowed : allows i

theorem Instr.Fits.mono (h : i.Fits allows defs) (hsub : ∀ d ∈ defs, d ∈ defs') :
    i.Fits allows defs' :=
  ⟨h.typed, fun v hv hlocal => (h.known v hv hlocal).mono hsub, h.noSlot, h.allowed⟩

/-- Can the terminator stand where these registers are visible, in a function that returns the
type? -/
structure Terminator.Fits (defs : List (String × Ty)) (returns : Ty) (t : Terminator) : Prop where
  typed : t.WellTyped returns
  known : ∀ v ∈ t.operands, v.Known defs

theorem Terminator.Fits.mono {returns : Ty} {t : Terminator} (h : t.Fits defs returns)
    (hsub : ∀ d ∈ defs, d ∈ defs') : t.Fits defs' returns :=
  ⟨h.typed, fun v hv => (h.known v hv).mono hsub⟩

theorem getElem?_snoc {α : Type} {l : List α} {x y : α} {n : Nat} (h : (l ++ [x])[n]? = some y) :
    (n < l.length ∧ l[n]? = some y) ∨ (n = l.length ∧ y = x) := by
  rcases Nat.lt_trichotomy n l.length with hlt | heq | hgt
  · rw [List.getElem?_append_left hlt] at h
    exact Or.inl ⟨hlt, h⟩
  · rw [heq, List.getElem?_append_right (Nat.le_refl _), Nat.sub_self, List.getElem?_cons_zero,
      Option.some.injEq] at h
    exact Or.inr ⟨heq, h.symm⟩
  · rw [List.getElem?_eq_none (by simp; omega)] at h
    simp at h

/-- Every instruction fits where it stands: behind these registers and the ones defined before
it. -/
def FitsAll (allows : Instr → Prop) (defs : List (String × Ty)) (is : List Instr) : Prop :=
  ∀ (place : Nat) (i : Instr), is[place]? = some i → i.Fits allows (defs ++ results (is.take place))

theorem FitsAll.mono (h : FitsAll allows defs is) (hsub : ∀ d ∈ defs, d ∈ defs') :
    FitsAll allows defs' is := by
  intro place i hi
  refine (h place i hi).mono fun d hd => ?_
  rcases List.mem_append.mp hd with hd | hd
  · exact List.mem_append_left _ (hsub d hd)
  · exact List.mem_append_right _ hd

theorem FitsAll.snoc (h : FitsAll allows defs is) (hi : i.Fits allows (defs ++ results is)) :
    FitsAll allows defs (is ++ [i]) := by
  intro place j hj
  rcases getElem?_snoc hj with ⟨hlt, hj⟩ | ⟨heq, hj⟩
  · rw [List.take_append_of_le_length (Nat.le_of_lt hlt)]
    exact h place j hj
  · rw [heq, hj, List.take_append_of_le_length (Nat.le_refl _), List.take_length]
    exact hi

/-- Every instruction reserves a slot, or stores the pointer that points nowhere in a slot that has
been reserved before. -/
def SetupFits (is : List Instr) : Prop :=
  ∀ (place : Nat) (i : Instr), is[place]? = some i →
    (∃ dest ty, i = .alloca dest ty) ∨
      ∃ dest ty, i = .store (.null ty) (.register dest (.ptr ty)) ∧
      ∃ j < place, is[j]? = some (.alloca dest ty)

theorem SetupFits.snoc (h : SetupFits is)
    (hi : (∃ dest ty, i = .alloca dest ty) ∨
      ∃ dest ty, i = .store (.null ty) (.register dest (.ptr ty)) ∧ .alloca dest ty ∈ is) :
    SetupFits (is ++ [i]) := by
  intro place j hj
  rcases getElem?_snoc hj with ⟨hlt, hj⟩ | ⟨heq, hj⟩
  · rcases h place j hj with hslot | ⟨dest, ty, hstore, k, hk, halloca⟩
    · exact Or.inl hslot
    · refine Or.inr ⟨dest, ty, hstore, k, hk, ?_⟩
      rw [List.getElem?_append_left (by omega)]
      exact halloca
  · rw [heq, hj]
    rcases hi with hslot | ⟨dest, ty, hstore, hmem⟩
    · exact Or.inl hslot
    · obtain ⟨k, hk⟩ := List.mem_iff_getElem?.mp hmem
      have hklt : k < is.length := (List.getElem?_eq_some_iff.mp hk).1
      refine Or.inr ⟨dest, ty, hstore, k, hklt, ?_⟩
      rw [List.getElem?_append_left hklt]
      exact hk

namespace FunctionDraft

/-- The registers that are visible in every block. -/
def entering (f : FunctionDraft) : List (String × Ty) :=
  f.params.map (fun p => (p.name, p.ty)) ++ results f.prologue.toList

/-- The registers that are visible at the end of the current block. -/
def visible (f : FunctionDraft) : List (String × Ty) :=
  f.entering ++ results f.here

/-- What is added to the prologue hides nothing. -/
theorem visible_setup (f : FunctionDraft) (i : Instr) (taken : Std.TreeSet String) :
    ∀ d ∈ f.visible, d ∈ visible { f with prologue := f.prologue.push i, taken } := by
  intro d hd
  rcases List.mem_append.mp hd with henter | hhere
  · refine List.mem_append_left _ ?_
    rcases List.mem_append.mp henter with hparam | hslot
    · exact List.mem_append_left _ hparam
    · refine List.mem_append_right _ ?_
      show d ∈ results (f.prologue.push i).toList
      rw [Array.toList_push, results_append]
      exact List.mem_append_left _ hslot
  · exact List.mem_append_right _ hhere

/-- The invariant of a function in the making whose instructions are among those that are
allowed. -/
structure Sound (allows : Instr → Prop) (f : FunctionDraft) : Prop where
  current : f.current < f.blocks.size
  setup : SetupFits f.prologue.toList
  /-- What is visible in every block has a dot in its name, and so is no counted register. -/
  dotted : ∀ d ∈ f.entering, '.' ∈ d.1.toList
  instrs : ∀ (k : Nat) (b : BlockDraft), f.blocks[k]? = some b →
    FitsAll allows f.entering b.instrs.toList
  terminators : ∀ (k : Nat) (b : BlockDraft), f.blocks[k]? = some b →
    b.terminator.Fits (f.entering ++ results b.instrs.toList) f.ret
  counted : ∀ (k : Nat) (b : BlockDraft), f.blocks[k]? = some b →
    ∀ d ∈ results b.instrs.toList, ∃ n < f.nextTemp, d.1 = Draft.tempName n
  /-- No two blocks define the same register. -/
  apart : ∀ (j k : Nat) (b c : BlockDraft), f.blocks[j]? = some b → f.blocks[k]? = some c →
    ∀ d ∈ results b.instrs.toList, ∀ e ∈ results c.instrs.toList, d.1 = e.1 → j = k
  /-- No block defines a register twice. -/
  once : ∀ (k : Nat) (b : BlockDraft), f.blocks[k]? = some b →
    ((results b.instrs.toList).map Prod.fst).Nodup

theorem here_eq {f : FunctionDraft} {b : BlockDraft} (hb : f.blocks[f.current]? = some b) :
    f.here = b.instrs.toList := by
  rw [here, hb]
  rfl

/-! ### What keeps the invariant -/

namespace Sound

variable {f : FunctionDraft}

/-- A block of a draft that has been extended is a block it had, the current one with more in it. -/
theorem of_extend {b : BlockDraft} (hb : (f.extend is).blocks[k]? = some b) :
    ∃ b₀, f.blocks[k]? = some b₀ ∧ b.terminator = b₀.terminator ∧
      (k = f.current ∧ b.instrs.toList = f.here ++ is ∨ k ≠ f.current ∧
        b.instrs.toList = b₀.instrs.toList) := by
  rw [getElem?_extend] at hb
  by_cases hk : f.current = k
  · rw [if_pos hk] at hb
    obtain ⟨b₀, hb₀, rfl⟩ := Option.map_eq_some_iff.mp hb
    refine ⟨b₀, hb₀, rfl, Or.inl ⟨hk.symm, ?_⟩⟩
    rw [here_eq (by rw [hk]; exact hb₀)]
    simp
  · rw [if_neg hk] at hb
    exact ⟨b, hb, rfl, Or.inr ⟨fun h => hk h.symm, rfl⟩⟩

/-- What a block of an extended draft defines was defined before, or is defined by the new
instruction. -/
theorem mem_results_extend {b : BlockDraft} (hb : (f.extend [i]).blocks[k]? = some b)
    (hd : d ∈ results b.instrs.toList) :
    (∃ b₀, f.blocks[k]? = some b₀ ∧ d ∈ results b₀.instrs.toList) ∨
      k = f.current ∧ i.result? = some d := by
  obtain ⟨b₀, hb₀, -, ⟨hk, his⟩ | ⟨-, his⟩⟩ := of_extend hb
  · rw [his, results_append] at hd
    rcases List.mem_append.mp hd with hd | hd
    · refine Or.inl ⟨b₀, hb₀, ?_⟩
      rwa [here_eq (by rw [← hk]; exact hb₀)] at hd
    · obtain ⟨j, hj, hjd⟩ := List.mem_filterMap.mp hd
      rw [List.mem_singleton] at hj
      rw [hj] at hjd
      exact Or.inr ⟨hk, hjd⟩
  · rw [his] at hd
    exact Or.inl ⟨b₀, hb₀, hd⟩

theorem extend (hf : f.Sound allows) (hi : i.Fits allows f.visible)
    (hres : ∀ d, i.result? = some d → d.1 = f.nextRegister) : Sound allows (f.extend [i]) := by
  refine ⟨?_, hf.setup, hf.dotted, ?_, ?_, ?_, ?_, ?_⟩
  · rw [extend_size]
    exact hf.current
  · intro k b hb
    obtain ⟨b₀, hb₀, -, ⟨hk, his⟩ | ⟨-, his⟩⟩ := of_extend hb
    · rw [his]
      refine FitsAll.snoc ?_ hi
      rw [here_eq (by rw [← hk]; exact hb₀)]
      exact hf.instrs k b₀ hb₀
    · rw [his]
      exact hf.instrs k b₀ hb₀
  · intro k b hb
    obtain ⟨b₀, hb₀, hterm, ⟨hk, his⟩ | ⟨-, his⟩⟩ := of_extend hb
    · rw [hterm, his]
      refine (hf.terminators k b₀ hb₀).mono fun d hd => ?_
      rw [results_append, here_eq (by rw [← hk]; exact hb₀), ← List.append_assoc]
      exact List.mem_append_left _ hd
    · rw [hterm, his]
      exact hf.terminators k b₀ hb₀
  · intro k b hb d hd
    rcases mem_results_extend hb hd with ⟨b₀, hb₀, hd₀⟩ | ⟨-, hnew⟩
    · obtain ⟨n, hn, hname⟩ := hf.counted k b₀ hb₀ d hd₀
      exact ⟨n, Nat.lt_of_lt_of_le hn (Nat.le_add_right _ _), hname⟩
    · refine ⟨f.nextTemp, ?_, hres d hnew⟩
      simp [results, hnew]
  · intro j k b c hb hc d hd e he heq
    rcases mem_results_extend hb hd with ⟨b₀, hb₀, hd₀⟩ | ⟨hj, hnewd⟩ <;>
      rcases mem_results_extend hc he with ⟨c₀, hc₀, he₀⟩ | ⟨hk, hnewe⟩
    · exact hf.apart j k b₀ c₀ hb₀ hc₀ d hd₀ e he₀ heq
    · obtain ⟨n, hn, hname⟩ := hf.counted j b₀ hb₀ d hd₀
      rw [hname, hres e hnewe] at heq
      exact absurd (Draft.tempName_inj heq) (Nat.ne_of_lt hn)
    · obtain ⟨n, hn, hname⟩ := hf.counted k c₀ hc₀ e he₀
      rw [hname, hres d hnewd] at heq
      exact absurd (Draft.tempName_inj heq).symm (Nat.ne_of_lt hn)
    · rw [hj, hk]
  · intro k b hb
    obtain ⟨b₀, hb₀, -, ⟨hk, his⟩ | ⟨-, his⟩⟩ := of_extend hb
    · have hhere : f.here = b₀.instrs.toList := here_eq (by rw [← hk]; exact hb₀)
      rw [his, results_append, List.map_append, hhere]
      cases hi? : i.result? with
      | none =>
        have hnone : results [i] = [] := by simp [results, hi?]
        rw [hnone, List.map_nil, List.append_nil]
        exact hf.once k b₀ hb₀
      | some d =>
        -- A new register has a number that none has had before.
        have hone : results [i] = [d] := by simp [results, hi?]
        rw [hone, List.map_singleton, List.nodup_append]
        refine ⟨hf.once k b₀ hb₀, List.pairwise_singleton _ _, ?_⟩
        intro name hname other hother heq
        obtain ⟨e, he, rfl⟩ := List.mem_map.mp hname
        obtain ⟨n, hn, hcounted⟩ := hf.counted k b₀ hb₀ e he
        rw [List.mem_singleton] at hother
        rw [hcounted, hother, hres d hi?] at heq
        exact absurd (Draft.tempName_inj heq) (Nat.ne_of_lt hn)
    · rw [his]
      exact hf.once k b₀ hb₀

/-- What was visible in the current block still is, and so is what the new instruction defines. -/
theorem visible_extend (hf : f.Sound allows) (is : List Instr) :
    (f.extend is).visible = f.visible ++ results is := by
  rw [visible, visible, here_extend hf.current, results_append, ← List.append_assoc]
  rfl

theorem push_setup (hf : f.Sound allows) (taken : Std.TreeSet String)
    (hi : (∃ dest ty, i = .alloca dest ty) ∨
      ∃ dest ty, i = .store (.null ty) (.register dest (.ptr ty)) ∧
      .alloca dest ty ∈ f.prologue.toList)
    (hdot : ∀ d, i.result? = some d → '.' ∈ d.1.toList) :
    Sound allows { f with prologue := f.prologue.push i, taken } := by
  have henter : FunctionDraft.entering { f with prologue := f.prologue.push i, taken }
      = f.entering ++ results [i] := by
    show _ ++ results (f.prologue.push i).toList = _
    rw [Array.toList_push, results_append, ← List.append_assoc]
    rfl
  have hsub : ∀ d ∈ f.entering, d ∈ f.entering ++ results [i] :=
    fun d hd => List.mem_append_left _ hd
  refine ⟨hf.current, ?_, ?_, ?_, ?_, hf.counted, hf.apart, hf.once⟩
  · show SetupFits (f.prologue.push i).toList
    rw [Array.toList_push]
    exact hf.setup.snoc hi
  · intro d hd
    rw [henter] at hd
    rcases List.mem_append.mp hd with hd | hd
    · exact hf.dotted d hd
    · obtain ⟨j, hj, hjd⟩ := List.mem_filterMap.mp hd
      rw [List.mem_singleton] at hj
      rw [hj] at hjd
      exact hdot d hjd
  · intro k b hb
    rw [henter]
    exact (hf.instrs k b hb).mono hsub
  · intro k b hb
    rw [henter]
    refine (hf.terminators k b hb).mono fun d hd => ?_
    rcases List.mem_append.mp hd with hd | hd
    · exact List.mem_append_left _ (hsub d hd)
    · exact List.mem_append_right _ hd

theorem createBlock (hf : f.Sound allows) (hint : String) :
    Sound allows (f.createBlock hint).2 := by
  have hcases : ∀ (k : Nat) (b : BlockDraft), (f.createBlock hint).2.blocks[k]? = some b →
      f.blocks[k]? = some b ∨ b.instrs = #[] ∧ b.terminator = .unreachable := by
    intro k b hb
    have hpush : (f.blocks.push { label := Draft.freshName f.taken hint })[k]? = some b := hb
    rw [Array.getElem?_push] at hpush
    by_cases hk : k = f.blocks.size
    · rw [if_pos hk, Option.some.injEq] at hpush
      rw [← hpush]
      exact Or.inr ⟨rfl, rfl⟩
    · rw [if_neg hk] at hpush
      exact Or.inl hpush
  refine ⟨?_, hf.setup, hf.dotted, ?_, ?_, ?_, ?_, ?_⟩
  · show f.current < (f.blocks.push _).size
    rw [Array.size_push]
    exact Nat.lt_succ_of_lt hf.current
  · intro k b hb
    rcases hcases k b hb with hold | ⟨hempty, -⟩
    · exact hf.instrs k b hold
    · rw [hempty]
      intro place i hi
      simp at hi
  · intro k b hb
    rcases hcases k b hb with hold | ⟨-, hterm⟩
    · exact hf.terminators k b hold
    · rw [hterm]
      exact ⟨trivial, by intro v hv; simp [Terminator.operands] at hv⟩
  · intro k b hb d hd
    rcases hcases k b hb with hold | ⟨hempty, -⟩
    · exact hf.counted k b hold d hd
    · rw [hempty] at hd
      simp at hd
  · intro j k b c hb hc d hd e he heq
    rcases hcases j b hb with hold | ⟨hempty, -⟩
    · rcases hcases k c hc with hold' | ⟨hempty, -⟩
      · exact hf.apart j k b c hold hold' d hd e he heq
      · rw [hempty] at he
        simp at he
    · rw [hempty] at hd
      simp at hd
  · intro k b hb
    rcases hcases k b hb with hold | ⟨hempty, -⟩
    · exact hf.once k b hold
    · rw [hempty]
      exact List.nodup_nil

theorem switchTo (hf : f.Sound allows) {block : Nat} (hblock : block < f.blocks.size) :
    Sound allows (f.switchTo block) :=
  ⟨hblock, hf.setup, hf.dotted, hf.instrs, hf.terminators, hf.counted, hf.apart, hf.once⟩

theorem terminate (hf : f.Sound allows) {t : Terminator} (ht : t.Fits f.visible f.ret) :
    Sound allows (f.terminate t) := by
  have hcases : ∀ (k : Nat) (b : BlockDraft), (f.terminate t).blocks[k]? = some b →
      ∃ b₀, f.blocks[k]? = some b₀ ∧ b.instrs = b₀.instrs ∧
        (b.terminator = b₀.terminator ∨ k = f.current ∧ b.terminator = t) := by
    intro k b hb
    have hmodify : (f.blocks.modify f.current fun b => { b with terminator := t })[k]? = some b :=
      hb
    rw [Array.getElem?_modify] at hmodify
    by_cases hk : f.current = k
    · rw [if_pos hk] at hmodify
      obtain ⟨b₀, hb₀, rfl⟩ := Option.map_eq_some_iff.mp hmodify
      exact ⟨b₀, hb₀, rfl, Or.inr ⟨hk.symm, rfl⟩⟩
    · rw [if_neg hk] at hmodify
      exact ⟨b, hmodify, rfl, Or.inl rfl⟩
  refine ⟨?_, hf.setup, hf.dotted, ?_, ?_, ?_, ?_, ?_⟩
  · show f.current < (f.blocks.modify _ _).size
    rw [Array.size_modify]
    exact hf.current
  · intro k b hb
    obtain ⟨b₀, hb₀, his, -⟩ := hcases k b hb
    rw [his]
    exact hf.instrs k b₀ hb₀
  · intro k b hb
    obtain ⟨b₀, hb₀, his, hsame | ⟨hk, hnew⟩⟩ := hcases k b hb
    · rw [his, hsame]
      exact hf.terminators k b₀ hb₀
    · rw [his, hnew]
      rw [visible, here_eq (by rw [← hk]; exact hb₀)] at ht
      exact ht
  · intro k b hb d hd
    obtain ⟨b₀, hb₀, his, -⟩ := hcases k b hb
    rw [his] at hd
    exact hf.counted k b₀ hb₀ d hd
  · intro j k b c hb hc d hd e he heq
    obtain ⟨b₀, hb₀, hbis, -⟩ := hcases j b hb
    obtain ⟨c₀, hc₀, hcis, -⟩ := hcases k c hc
    rw [hbis] at hd
    rw [hcis] at he
    exact hf.apart j k b₀ c₀ hb₀ hc₀ d hd e he heq
  · intro k b hb
    obtain ⟨b₀, hb₀, his, -⟩ := hcases k b hb
    rw [his]
    exact hf.once k b₀ hb₀

/-- A draft of allowed instructions is one where more are allowed. -/
theorem weaken {other : Instr → Prop} (hf : f.Sound allows) (h : ∀ i, allows i → other i) :
    f.Sound other :=
  ⟨hf.current, hf.setup, hf.dotted, fun k b hb place i hi =>
    have hfits := hf.instrs k b hb place i hi
    ⟨hfits.typed, hfits.known, hfits.noSlot, h i hfits.allowed⟩, hf.terminators, hf.counted,
    hf.apart, hf.once⟩

end Sound

/-! ### The finished function -/

/-- A block of the finished function is a block of the draft; the first one has the prologue before
it. -/
theorem getElem?_build (f : FunctionDraft) (k : Nat) :
    f.build.blocks[k]? = f.blocks[k]?.map fun b =>
      ⟨b.label, if k = 0 then f.prologue.toList ++ b.instrs.toList else b.instrs.toList,
        b.terminator⟩ := by
  show (List.modifyHead _ (f.blocks.toList.map _))[k]? = _
  rw [List.getElem?_modifyHead, List.getElem?_map, Array.getElem?_toList]
  by_cases hk : k = 0
  · subst hk
    cases f.blocks[0]? <;> rfl
  · rw [if_neg hk]
    cases f.blocks[k]? <;> simp [hk]

namespace Sound

variable {f : FunctionDraft}

/-- A block of the finished function, instruction by instruction: each belongs to the prologue and
stands in the first block, or fits behind what was visible. -/
theorem instr_build (hf : f.Sound allows) (hb : f.build.blocks[k]? = some b)
    (hi : b.instrs[place]? = some i) : (k = 0 ∧ f.prologue.toList[place]? = some i) ∨
      ∃ b₀ place₀, f.blocks[k]? = some b₀ ∧ b₀.instrs.toList[place₀]? = some i ∧
        place = (if k = 0 then f.prologue.size else 0) + place₀ ∧
        i.Fits allows (f.entering ++ results (b₀.instrs.toList.take place₀)) := by
  rw [getElem?_build] at hb
  obtain ⟨b₀, hb₀, rfl⟩ := Option.map_eq_some_iff.mp hb
  by_cases hk : k = 0
  · simp only [if_pos hk] at hi ⊢
    rcases Nat.lt_or_ge place f.prologue.toList.length with hlt | hge
    · rw [List.getElem?_append_left hlt] at hi
      exact Or.inl ⟨hk, hi⟩
    · rw [List.getElem?_append_right hge] at hi
      refine Or.inr ⟨b₀, _, hb₀, hi, ?_, hf.instrs k b₀ hb₀ _ i hi⟩
      rw [Array.length_toList] at hge ⊢
      omega
  · simp only [if_neg hk] at hi ⊢
    exact Or.inr ⟨b₀, place, hb₀, hi, by omega, hf.instrs k b₀ hb₀ place i hi⟩

theorem mem_definitions (hb : f.build.blocks[k]? = some b) (hd : d ∈ results b.instrs) :
    d ∈ f.build.definitions := by
  obtain ⟨i, hi, hid⟩ := List.mem_filterMap.mp hd
  refine List.mem_append_right _ (List.mem_filterMap.mpr ⟨i, ?_, hid⟩)
  exact List.mem_flatMap.mpr ⟨b, List.mem_of_getElem? hb, hi⟩

theorem entry_build (hf : f.Sound allows) :
    ∃ entry rest, f.build.blocks[0]? = some entry ∧ entry.instrs = f.prologue.toList ++ rest := by
  have hpos : 0 < f.blocks.size := Nat.lt_of_le_of_lt (Nat.zero_le _) hf.current
  rw [getElem?_build, Array.getElem?_eq_getElem hpos]
  exact ⟨_, _, rfl, rfl⟩

theorem entering_build (hf : f.Sound allows) (hd : d ∈ f.entering) : d ∈ f.build.definitions := by
  rcases List.mem_append.mp hd with hparam | hslot
  · exact List.mem_append_left _ hparam
  · obtain ⟨entry, rest, hentry, hinstrs⟩ := hf.entry_build
    refine mem_definitions hentry ?_
    rw [hinstrs, results_append]
    exact List.mem_append_left _ hslot

theorem visible_build (hf : f.Sound allows) {b₀ : BlockDraft} (hb₀ : f.blocks[k]? = some b₀)
    (place : Nat)
    (hd : d ∈ f.entering ++ results (b₀.instrs.toList.take place)) : d ∈ f.build.definitions := by
  rcases List.mem_append.mp hd with henter | hhere
  · exact hf.entering_build henter
  · have hb := f.getElem?_build k
    rw [hb₀, Option.map_some] at hb
    refine mem_definitions hb ?_
    obtain ⟨i, hi, hid⟩ := List.mem_filterMap.mp hhere
    refine List.mem_filterMap.mpr ⟨i, ?_, hid⟩
    have hmem := List.mem_of_mem_take hi
    by_cases hk : k = 0
    · simp only [if_pos hk]
      exact List.mem_append_right _ hmem
    · simp only [if_neg hk]
      exact hmem

/-- **The finished function is well typed.** -/
theorem wellTyped (hf : f.Sound allows) : f.build.WellTyped := by
  refine ⟨?_, ?_, ?_⟩
  · intro b hb i hi
    obtain ⟨k, hk⟩ := List.mem_iff_getElem?.mp hb
    obtain ⟨place, hplace⟩ := List.mem_iff_getElem?.mp hi
    rcases hf.instr_build hk hplace with ⟨-, hsetup⟩ | ⟨_, _, _, _, _, hfits⟩
    · rcases hf.setup place i hsetup with ⟨dest, ty, rfl⟩ | ⟨dest, ty, rfl, -⟩
      · trivial
      · rfl
    · exact hfits.typed
  · intro b hb
    obtain ⟨k, hk⟩ := List.mem_iff_getElem?.mp hb
    rw [getElem?_build] at hk
    obtain ⟨b₀, hb₀, rfl⟩ := Option.map_eq_some_iff.mp hk
    exact (hf.terminators k b₀ hb₀).typed
  · intro b hb name ty hv
    obtain ⟨k, hk⟩ := List.mem_iff_getElem?.mp hb
    rcases List.mem_append.mp hv with hinstr | hterm
    · obtain ⟨i, hi, hiv⟩ := List.mem_flatMap.mp hinstr
      obtain ⟨place, hplace⟩ := List.mem_iff_getElem?.mp hi
      rcases hf.instr_build hk hplace with ⟨-, hsetup⟩ | ⟨b₀, place₀, hb₀, -, -, hfits⟩
      · rcases hf.setup place i hsetup with ⟨dest, slot, rfl⟩ | ⟨dest, slot, rfl, j, -, hj⟩
        · simp [Instr.operands] at hiv
        · -- The slot that is stored to has been reserved in the prologue.
          simp only [Instr.operands, List.mem_cons, reduceCtorEq, Value.register.injEq,
            List.not_mem_nil, or_false, false_or] at hiv
          obtain ⟨rfl, rfl⟩ := hiv
          refine hf.entering_build (List.mem_append_right _ ?_)
          exact List.mem_filterMap.mpr ⟨_, List.mem_of_getElem? hj, rfl⟩
      · exact hf.visible_build hb₀ place₀ (hfits.known _ hiv trivial)
    · rw [getElem?_build] at hk
      obtain ⟨b₀, hb₀, rfl⟩ := Option.map_eq_some_iff.mp hk
      refine hf.visible_build hb₀ b₀.instrs.toList.length ?_
      rw [List.take_length]
      exact (hf.terminators k b₀ hb₀).known _ hterm

/-- A register that is visible in every block is a parameter or a slot. -/
theorem entering_cases (hf : f.Sound allows) {ty : Ty} (h : (name, ty) ∈ f.entering) :
    name ∈ f.build.params.map Param.name ∨
    ∃ (j : Nat) (slot : Ty), f.prologue.toList[j]? = some (.alloca name slot) := by
  rcases List.mem_append.mp h with hparam | hslot
  · obtain ⟨p, hp, heq⟩ := List.mem_map.mp hparam
    exact Or.inl (List.mem_map.mpr ⟨p, hp, congrArg Prod.fst heq⟩)
  · obtain ⟨i, hi, hres⟩ := List.mem_filterMap.mp hslot
    obtain ⟨j, hj⟩ := List.mem_iff_getElem?.mp hi
    rcases hf.setup j i hj with ⟨dest, slot, rfl⟩ | ⟨dest, slot, rfl, -⟩
    · simp only [Instr.result?, Option.some.injEq, Prod.mk.injEq] at hres
      rw [hres.1] at hj
      exact Or.inr ⟨j, slot, hj⟩
    · simp [Instr.result?] at hres

/-- Where a register comes from that is visible at a place of the finished function: it is a
parameter, a slot that has been reserved before, or a counted register that is defined before in the
same block. -/
theorem visible_cases (hf : f.Sound allows) {b₀ : BlockDraft} (hb₀ : f.blocks[k]? = some b₀)
    (hb : f.build.blocks[k]? = some b) {place₀ : Nat} {ty : Ty}
    (h : (name, ty) ∈ f.entering ++ results (b₀.instrs.toList.take place₀)) :
    name ∈ f.build.params.map Param.name ∨
      (∃ (j : Nat) (slot : Ty), f.prologue.toList[j]? = some (.alloca name slot) ∧
        (k = 0 → j < (if k = 0 then f.prologue.size else 0) + place₀)) ∨
      b.DefinesBefore name ((if k = 0 then f.prologue.size else 0) + place₀) ∧
      Draft.IsTemp name := by
  rcases List.mem_append.mp h with henter | hhere
  · rcases hf.entering_cases henter with hparam | ⟨j, slot, hj⟩
    · exact Or.inl hparam
    · refine Or.inr (Or.inl ⟨j, slot, hj, fun hk => ?_⟩)
      have hlt := (List.getElem?_eq_some_iff.mp hj).1
      rw [Array.length_toList] at hlt
      rw [if_pos hk]
      omega
  · obtain ⟨i, hi, hres⟩ := List.mem_filterMap.mp hhere
    obtain ⟨j, hj⟩ := List.mem_iff_getElem?.mp hi
    have hjlt : j < place₀ := by
      have := (List.getElem?_eq_some_iff.mp hj).1
      rw [List.length_take] at this
      omega
    rw [List.getElem?_take_of_lt hjlt] at hj
    refine Or.inr
      (Or.inr ⟨⟨(if k = 0 then f.prologue.size else 0) + j, by omega, i, ty, ?_, hres⟩, ?_⟩)
    · rw [getElem?_build, hb₀, Option.map_some, Option.some.injEq] at hb
      rw [← hb]
      by_cases hk : k = 0
      · simp only [if_pos hk]
        rw [← Array.length_toList, List.getElem?_append_right (Nat.le_add_right _ _),
          Nat.add_sub_cancel_left]
        exact hj
      · simp only [if_neg hk, Nat.zero_add]
        exact hj
    · obtain ⟨n, -, hname⟩ := hf.counted k b₀ hb₀ (name, ty)
        (List.mem_filterMap.mpr ⟨i, List.mem_of_getElem? hj, hres⟩)
      exact ⟨n, hname⟩

theorem register_cases (hf : f.Sound allows) (hb : f.build.blocks[k]? = some b) {ty : Ty}
    (hv : .register name ty ∈ b.operandsAt place) :
    name ∈ f.build.params.map Param.name ∨
      (∃ (j : Nat) (slot : Ty), f.prologue.toList[j]? = some (.alloca name slot) ∧
        (k = 0 → j < place)) ∨
      b.DefinesBefore name place ∧ Draft.IsTemp name := by
  rw [Block.operandsAt] at hv
  cases hi : b.instrs[place]? with
  | some i =>
    simp only [hi] at hv
    rcases hf.instr_build hb hi with ⟨hk, hsetup⟩ | ⟨b₀, place₀, hb₀, -, rfl, hfits⟩
    · rcases hf.setup place i hsetup with ⟨dest, slot, rfl⟩ | ⟨dest, slot, rfl, j, hjlt, hj⟩
      · simp [Instr.operands] at hv
      · simp only [Instr.operands, List.mem_cons, reduceCtorEq, Value.register.injEq,
          List.not_mem_nil, or_false, false_or] at hv
        obtain ⟨rfl, rfl⟩ := hv
        exact Or.inr (Or.inl ⟨j, slot, hj, fun _ => hjlt⟩)
    · exact hf.visible_cases hb₀ hb (hfits.known _ hv trivial)
  | none =>
    simp only [hi] at hv
    by_cases hplace : place = b.instrs.length
    · rw [if_pos hplace] at hv
      have hb' := hb
      rw [getElem?_build] at hb'
      obtain ⟨b₀, hb₀, hbeq⟩ := Option.map_eq_some_iff.mp hb'
      have hlength : place = (if k = 0 then f.prologue.size else 0) + b₀.instrs.toList.length := by
        rw [hplace, ← hbeq]
        by_cases hk : k = 0 <;> simp [hk]
      rw [hlength]
      rw [← hbeq] at hv
      have hknown : (name, ty) ∈ f.entering ++ results b₀.instrs.toList :=
        (hf.terminators k b₀ hb₀).known _ hv
      rw [← List.take_length (l := b₀.instrs.toList)] at hknown
      exact hf.visible_cases hb₀ hb hknown
    · rw [if_neg hplace] at hv
      simp at hv

/-- What a block of the finished function defines under the name of a counted register, the block of
the draft defines. -/
theorem defines_build (hf : f.Sound allows) (hb : f.build.blocks[k]? = some b)
    (htemp : Draft.IsTemp name)
    (hdef : b.Defines name) : ∃ b₀ ty, f.blocks[k]? = some b₀ ∧
    (name, ty) ∈ results b₀.instrs.toList := by
  obtain ⟨ty, hmem⟩ := hdef
  obtain ⟨i, hi, hres⟩ := List.mem_filterMap.mp hmem
  obtain ⟨place, hplace⟩ := List.mem_iff_getElem?.mp hi
  rcases hf.instr_build hb hplace with ⟨-, hsetup⟩ | ⟨b₀, place₀, hb₀, hi₀, -, -⟩
  · have hdot : '.' ∈ name.toList := by
      refine hf.dotted (name, ty) (List.mem_append_right _ (List.mem_filterMap.mpr ⟨i, ?_, hres⟩))
      exact List.mem_of_getElem? hsetup
    exact absurd htemp (Draft.not_isTemp_of_dot hdot)
  · exact ⟨b₀, ty, hb₀, List.mem_filterMap.mpr ⟨i, List.mem_of_getElem? hi₀, hres⟩⟩

/-- **The definitions of the finished function dominate their uses.** -/
theorem dominated (hf : f.Sound allows) : f.build.Dominated f.prologue.toList := by
  refine ⟨?_, ?_, ?_, ?_, ?_⟩
  · obtain ⟨entry, rest, hentry, hinstrs⟩ := hf.entry_build
    rw [← List.head?_eq_getElem?] at hentry
    exact ⟨entry, rest, hentry, hinstrs⟩
  · intro i hi
    obtain ⟨place, hplace⟩ := List.mem_iff_getElem?.mp hi
    rcases hf.setup place i hplace with ⟨dest, ty, rfl⟩ | ⟨dest, ty, rfl, -⟩ <;> trivial
  · intro k b place i hb hi hsetup
    rcases hf.instr_build hb hi with ⟨hk, hplace⟩ | ⟨_, _, _, _, _, hfits⟩
    · exact ⟨hk, (List.getElem?_eq_some_iff.mp hplace).1⟩
    · exfalso
      cases i with
      | alloca dest ty => exact hfits.noSlot dest ty rfl
      | store value ptr =>
        cases value with
        | null ty => exact hfits.known (.null ty) (by simp [Instr.operands]) trivial
        | register name ty => exact hsetup
        | global name ty => exact hsetup
        | int value ty => exact hsetup
        | double value => exact hsetup
      | _ => exact hsetup
  · intro k b place name ty hb hv htemp
    rcases hf.register_cases hb hv with hparam | ⟨j, slot, hj, -⟩ | ⟨hbefore, -⟩
    · -- Parameters have a dot in their names.
      obtain ⟨p, hp, rfl⟩ := List.mem_map.mp hparam
      exact absurd htemp (Draft.not_isTemp_of_dot
        (hf.dotted (p.name, p.ty) (List.mem_append_left _ (List.mem_map.mpr ⟨p, hp, rfl⟩))))
    · exact absurd htemp (Draft.not_isTemp_of_dot (hf.dotted (name, .ptr slot)
        (List.mem_append_right _ (List.mem_filterMap.mpr ⟨_, List.mem_of_getElem? hj, rfl⟩))))
    · refine ⟨hbefore, ?_⟩
      intro j b' hb' hdef'
      obtain ⟨c₀, ty', hc₀, hc⟩ := hf.defines_build hb' htemp hdef'
      obtain ⟨j', hjlt, i, tyd, hi, hres⟩ := hbefore
      have hdef : b.Defines name := ⟨tyd, List.mem_filterMap.mpr ⟨i, List.mem_of_getElem? hi, hres⟩⟩
      obtain ⟨b₀, ty'', hb₀, hb''⟩ := hf.defines_build hb htemp hdef
      exact hf.apart j k c₀ b₀ hc₀ hb₀ _ hc _ hb'' rfl
  · intro k b place name ty hb hv htemp
    rcases hf.register_cases hb hv with hparam | hslot | ⟨-, htemp'⟩
    · exact Or.inl hparam
    · exact Or.inr hslot
    · exact absurd htemp' htemp

end Sound

/-! ### Blocks of conditionals and loops -/

theorem visible_created {f : FunctionDraft} (hf : f.current < f.blocks.size) (hints : List String) :
    (f.created hints).visible = f.visible := by
  have henter : (f.created hints).entering = f.entering := by
    induction hints generalizing f with
    | nil => rfl
    | cons hint hints ih => exact ih (by rw [createBlock_current, createBlock_size]; omega)
  rw [visible, visible, henter, here, here, created_current, getElem?_created_old f hints hf]

namespace Sound

variable {f : FunctionDraft}

theorem created (hf : f.Sound allows) (hints : List String) : Sound allows (f.created hints) := by
  induction hints generalizing f with
  | nil => exact hf
  | cons hint hints ih => exact ih (hf.createBlock hint)

theorem branch (hf : f.Sound allows) (block : Nat) : Sound allows (f.branch block) :=
  hf.terminate ⟨trivial, by simp [Terminator.operands]⟩

theorem fallTo (hf : f.Sound allows) (block : Nat) : Sound allows (f.fallTo block) := by
  rw [FunctionDraft.fallTo]
  split
  · exact hf
  · exact hf.branch block

theorem condBranch (hf : f.Sound allows) (hknown : truth.Known f.visible) (hty : truth.ty = .i1)
    (ifTrue ifFalse : Nat) : Sound allows (f.condBranch truth ifTrue ifFalse) :=
  hf.terminate ⟨hty, by simpa [Terminator.operands] using hknown⟩

theorem fork (hf : f.Sound allows) (hknown : truth.Known f.visible) (hty : truth.ty = .i1)
    (join? : Option Nat)
    (followed : Bool) : Sound allows (f.fork truth join? followed).function := by
  refine (hf.created _).condBranch ?_ hty _ _
  rw [visible_created hf.current]
  exact hknown

theorem enter (hf : f.Sound allows) (kind : String) : Sound allows (f.enter kind) := by
  refine ((hf.created _).branch _).switchTo ?_
  rw [FunctionDraft.branch, terminate_size, created_size]
  exact Nat.lt_add_of_pos_right (by simp)

/-- A function with nothing in it is sound, if the names of its parameters have a dot in them. -/
theorem start (name : String) {params : List Param} (ret : Ty)
    (hdot : ∀ p ∈ params, '.' ∈ p.name.toList) : Sound allows (start name params ret) := by
  have hblock :
    ∀ (k : Nat) (b : BlockDraft), (FunctionDraft.start name params ret).blocks[k]? = some b →
      b.instrs = #[] ∧ b.terminator = .unreachable := by
    intro k b hb
    have hpush : ((#[] : Array BlockDraft).push { label := Draft.freshName _ "entry" })[k]? =
      some b := hb
    rw [Array.getElem?_push] at hpush
    split at hpush
    · rw [← Option.some.inj hpush]
      exact ⟨rfl, rfl⟩
    · simp at hpush
  refine ⟨Nat.one_pos, ?_, ?_, ?_, ?_, ?_, ?_, ?_⟩
  · intro place i hi
    simp [FunctionDraft.start, FunctionDraft.createBlock, takeName, FunctionDraft.switchTo] at hi
  · intro d hd
    rcases List.mem_append.mp hd with hparam | hslot
    · obtain ⟨p, hp, rfl⟩ := List.mem_map.mp hparam
      exact hdot p hp
    · simp [FunctionDraft.start, FunctionDraft.createBlock, takeName,
        FunctionDraft.switchTo] at hslot
  · intro k b hb place i hi
    rw [(hblock k b hb).1] at hi
    simp at hi
  · intro k b hb
    rw [(hblock k b hb).2]
    exact ⟨trivial, by simp [Terminator.operands]⟩
  · intro k b hb d hd
    rw [(hblock k b hb).1] at hd
    simp at hd
  · intro j k b c hb hc d hd
    rw [(hblock j b hb).1] at hd
    simp at hd
  · intro k b hb
    rw [(hblock k b hb).1]
    exact List.nodup_nil

end Sound

end FunctionDraft

end Pseudocode.Ir
