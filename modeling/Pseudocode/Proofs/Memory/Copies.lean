import Pseudocode.Proofs.Grammar.Statements
import Pseudocode.Proofs.Memory.Statements

/-!
Copies of strings in generated functions.

A function begins with slots that point nowhere, and from there the strings of its scope are
followed through its statements.  So every copy writes inside of the block that it is meant for
(`writesInside_of_parse`).
-/

namespace Pseudocode

namespace Ir

/-! ### The setup of a function -/

/-- Memory in which these slots have been reserved, and nothing else has happened. -/
structure Memory.Prepared (setup : List Instr) (d : Memory) : Prop where
  slots : ∀ name ty, .alloca name ty ∈ setup → d.registers name = .slot name ∧
    ∃ slot?, d.slots name = .nowhere slot?
  temps : ∀ k name, d.registers (Draft.tempName k) ≠ .slot name
  sizes : d.sizes = []
  freed : d.freed = []
  stored : d.stored = []

namespace Memory.Prepared

variable {setup : List Instr} {d : Memory} {dest : String} {ty : Ty}

theorem empty : Memory.Prepared [] {} :=
  ⟨by simp, by simp, rfl, rfl, rfl⟩

theorem alloca (h : d.Prepared setup) (hdot : '.' ∈ dest.toList) :
    (d.step (.alloca dest ty)).Prepared (setup ++ [.alloca dest ty]) := by
  refine ⟨?_, ?_, h.sizes, h.freed, h.stored⟩
  · intro name ty' hname
    show (if name = dest then Content.slot dest else d.registers name) = .slot name ∧
      ∃ slot?, (if name = dest then Content.nowhere none else d.slots name) = .nowhere slot?
    by_cases heq : name = dest
    · rw [if_pos heq, if_pos heq, heq]
      exact ⟨rfl, none, rfl⟩
    · rw [if_neg heq, if_neg heq]
      refine h.slots name ty' ?_
      simpa [heq] using hname
  · intro k name
    refine ne_of_eq_of_ne (if_neg ?_) (h.temps k name)
    rintro rfl
    exact Draft.dot_notMem_tempName k hdot

theorem store (h : d.Prepared setup) (hdest : .alloca dest ty ∈ setup) :
    (d.step (.store (.null ty) (.register dest (.ptr ty)))).Prepared
      (setup ++ [.store (.null ty) (.register dest (.ptr ty))]) := by
  have hstep :
    d.step (.store (.null ty) (.register dest (.ptr ty))) = d.setSlot dest (.nowhere none) := by
    show { d.write (d.registers dest) (.nowhere none) with stored := d.stored } = _
    rw [(h.slots dest ty hdest).1]
    rfl
  rw [hstep]
  refine ⟨?_, h.temps, h.sizes, h.freed, h.stored⟩
  intro name ty' hname
  obtain ⟨hregister, slot?, hslot⟩ := h.slots name ty' (by simpa using hname)
  refine ⟨hregister, ?_⟩
  show ∃ slot?, (if name = dest then Content.nowhere none else d.slots name) = .nowhere slot?
  split
  · exact ⟨none, rfl⟩
  · exact ⟨slot?, hslot⟩

end Memory.Prepared

end Ir

namespace Lower

open Ir

variable {reads : Prop} {globals : List Global} {F : FunctionDraft} {scope : Scope}

/-- The setup of a function does nothing but reserve slots. -/
theorem clears_setup {all before after : List Instr} {d : Memory} (hall : all = before ++ after)
    (hsetup : SetupFits all)
    (hdotted : ∀ name ty, .alloca name ty ∈ all → '.' ∈ name.toList) (hd : d.Prepared before) :
    (copies reads globals).Clears after d fun d' => d'.Prepared all := by
  induction after generalizing before d with
  | nil =>
    rw [hall, List.append_nil]
    exact hd
  | cons i after ih =>
    have hplace : all[before.length]? = some i := by simp [hall]
    have hall' : all = (before ++ [i]) ++ after := by simp [hall]
    rcases hsetup _ i hplace with ⟨dest, ty, rfl⟩ | ⟨dest, ty, rfl, j, hj, hreserved⟩
    · exact ⟨copies_ok (by simp) d,
        fun _ => ih hall' (hd.alloca (hdotted dest ty (List.mem_of_getElem? hplace)))⟩
    · rw [hall, List.getElem?_append_left hj] at hreserved
      exact ⟨copies_ok (by simp) d, fun _ => ih hall' (hd.store (List.mem_of_getElem? hreserved))⟩

/-- Where nothing has been stored, strings are where they should be. -/
theorem Prepared.holds {storage : Storage} {d : Memory} (hd : d.Prepared F.prologue.toList)
    (hstorage : ∀ symbol : Symbol, symbol.scope = scope → storage[symbol]? = none) :
    HoldsStrings reads F scope storage (fun _ => []) d := by
  refine ⟨⟨fun name ty h => (hd.slots name ty h).1, hd.temps,
    fun name h => Or.inl (hd.slots name .bytes h).2, ?_, ?_,
    fun x name h _ _ => (hd.slots name .bytes h).2⟩, ?_, ?_⟩
  · intro name name' b hname _ hb
    obtain ⟨slot?, hslot⟩ := (hd.slots name .bytes hname).2
    rw [hslot] at hb
    simp at hb
  · rw [hd.freed]
    simp
  · intro x slot n name hslot
    rw [hstorage ⟨x, scope⟩ rfl] at hslot
    simp at hslot
  · intro _ x name _ hlast
    have hmem := hlast.mem
    rw [hd.stored] at hmem
    simp at hmem

/-! ### Functions -/

/-- The copies of a function are as they should be. -/
def copyProperty (reads : Prop) : Property where
  Holds globals f := f.Passes (copies reads globals) {}
  mono hglobals h := by
    refine Function.Passes.comap id h (fun _ _ => rfl) (fun _ _ h => h) ?_
    intro i d hok
    refine ⟨hok.1, fun hreads dest? signature dest source size hi => ?_⟩
    rcases hok.2 hreads dest? signature dest source size hi with
      hspans | ⟨g, hg, hconstant⟩ | hnever
    · exact Or.inl hspans
    · exact Or.inr (Or.inl ⟨g, hglobals hg, hconstant⟩)
    · exact Or.inr (Or.inr hnever)

/-- **The copies of a function are as they should be if those of its body fit.** -/
theorem copies_routine {params : List Param} {body : List Stmt}
    (hfits : reads → fitsAll (fun _ => []) body) :
    GoodRoutine (copyProperty reads) params body := by
  refine GoodRoutine.of_run fun scope env irParams s₀ s₁ s₂ value hrun => ?_
  obtain ⟨name, ret, hstart⟩ := hrun.start
  have hwhole := hrun.whole value
  have hsetup := hrun.ended.sound.function.setup
  refine passes_routine (R := HoldsStrings reads (s₂.function.leave (some value)) scope s₂.storage
    (lengthsAll (fun _ => []) body)) hstart hrun.endedOpen
    (clears_setup (List.nil_append _).symm hsetup hwhole.dotted .empty) fun d hd => ?_
  refine (leads_storeParams hrun.begun hwhole hrun.begunOpen (Prepared.holds hd hrun.nothing)
    hrun.passedNumeric hrun.passed hrun.store).trans hrun.blockKeeps.within fun d₁ hd₁ => ?_
  exact ((holds_walk reads _ hwhole).block scope body s₁ s₂ hrun.storedOpen hrun.block).2 env _
    hrun.agree hfits hrun.stored d₁ hd₁

end Lower

open Lower Ir

/-! ### Programs -/

theorem copies_of_parse {reads : Prop} {tokens : List Token} {p : Program}
    (hparse : parse tokens = .ok p)
    {name sourceName target : String} {m : Module}
    (h : (generate name sourceName target p).1 = .ok m)
    (hfits : reads → p.copiesFit) : ∀ f ∈ m.functions, f.Passes (copies reads m.globals) {} := by
  have hboth : reads → fitsAll (fun _ => []) p ∧
    ∀ r ∈ routinesAll p, fitsAll (fun _ => []) r.2 := by
    intro hreads
    simpa [Program.copiesFit] using hfits hreads
  exact good_of_generate h (allAgree_of_parse hparse)
    (copies_routine fun hreads => (hboth hreads).1)
    fun r hr => copies_routine fun hreads => (hboth hreads).2 r hr

/-- **Copies write inside of the blocks that they are meant for**, on every path through every
generated function. -/
theorem writesInside_of_parse {tokens : List Token} {p : Program} (hparse : parse tokens = .ok p)
    {name sourceName target : String} {m : Module}
    (h : (generate name sourceName target p).1 = .ok m) : ∀ f ∈ m.functions, f.WritesInside := by
  intro f hf
  have hpasses : f.Passes (copies False m.globals) {} := copies_of_parse hparse h False.elim f hf
  exact hpasses.comap id (fun _ _ => rfl) (fun _ _ _ => False.elim) fun _ _ hok => hok.1

/-- A string that grows in one turn of a loop and is replaced in another. -/
def growing : String :=
  "s = \"ab\"\nc = 1\nWHILE c < 4 DO\nIF c < 3 THEN\ns = s + \"cd\"\nELSE\nt = s\n" ++
    "s = \"x\" + t\nENDIF\nc = c + 1\nENDWHILE\nOUTPUT s\n"

theorem growing_writesInside : ∃ p m, parse (scan growing).tokens = .ok p ∧
    (generate "growing" "growing.pc" "none" p).1 = .ok m ∧
    m.functions.map (fun f => (f.blocks.flatMap Block.instrs).countP Instr.isCopy) = [8] ∧
    ∀ f ∈ m.functions, f.WritesInside := by
  have hok : ((parse (scan growing).tokens).toOption.bind fun p =>
      (generate "growing" "growing.pc" "none" p).1.toOption.map fun m =>
        m.functions.map fun f => (f.blocks.flatMap Block.instrs).countP Instr.isCopy) =
          some [8] := by decide +kernel
  obtain ⟨p, hp, hok⟩ := Option.bind_eq_some_iff.mp hok
  obtain ⟨m, hm, hcopies⟩ := Option.map_eq_some_iff.mp hok
  have hparse := eq_ok_of_toOption hp
  have h := eq_ok_of_toOption hm
  exact ⟨p, m, hparse, h, hcopies, writesInside_of_parse hparse h⟩

end Pseudocode
