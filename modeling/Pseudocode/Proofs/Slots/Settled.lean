import Pseudocode.Proofs.Grammar.Statements
import Pseudocode.Proofs.Slots.Statements

/-!
Reads of variables in generated functions.

Where a function begins, none of its variables has a slot, and no path has stored anything.  From
there the trail of each variable is followed through the parameters and the statements.  So in a
settled program every load finds what has been stored last (`readsLastWrite_of_settled`).

Not every program is settled.  If both arms of a conditional give a variable its first slot, then
behind the conditional the slot of the second arm stands for it, and a path through the first arm
has stored to the other one (`not_readsLastWrite_boundInBothArms`).
-/

namespace Pseudocode

namespace Lower

open Ir

variable {F : FunctionDraft} {scope : Scope} {x : String}

/-- The setup of a function neither loads nor stores anything that counts. -/
theorem trails_setup {setup : List Instr} (h : SetupFits setup) :
    (lastWriteOf x).Clears setup [] (· = []) := by
  have hall : ∀ i ∈ setup, i.loadsFrom? = none ∧ i.storesTo? = none := by
    intro i hi
    obtain ⟨place, hplace⟩ := List.mem_iff_getElem?.mp hi
    rcases h place i hplace with ⟨dest, ty, rfl⟩ | ⟨dest, ty, rfl, -⟩ <;> exact ⟨rfl, rfl⟩
  clear h
  induction setup with
  | nil => rfl
  | cons i setup ih =>
    obtain ⟨hloads, hstores⟩ := hall i List.mem_cons_self
    refine ⟨by simp [lastWriteOf, hloads], fun _ => ?_⟩
    show (lastWriteOf x).Clears setup (i.storesTo?.toList ++ []) (· = [])
    rw [hstores]
    exact ih fun j hj => hall j (List.mem_cons_of_mem _ hj)

theorem tracks_start {s : State} {name : String} {params : List Ir.Param} {ret : Ir.Ty}
    (hstart : s.function = .start name params ret)
    (hnothing : ∀ symbol : Symbol, symbol.scope = scope → s.storage[symbol]? = none) :
    Tracks x scope s {} := by
  have hslots : s.function.slotsOf x = [] := by
    rw [hstart]
    rfl
  refine ⟨by rw [hslots]; rfl, ?_⟩
  rw [hnothing ⟨x, scope⟩ rfl]
  trivial

theorem marks_start {storage : Storage} (hnothing : ∀ symbol : Symbol, symbol.scope = scope →
    storage[symbol]? = none) : Marks F x scope storage {} [] := by
  refine ⟨⟨none, Finset.mem_singleton_self none, by simp [LastAt]⟩, fun slot n hslot => ?_⟩
  rw [hnothing ⟨x, scope⟩ rfl] at hslot
  simp at hslot

/-- Loads find what has been stored last. -/
def lastWriteProperty : Property where
  Holds _ f := f.ReadsLastWrite
  mono _ h := h

/-- **In the function of a settled body loads find what has been stored last.** -/
theorem lastWrite_routine {params : List Param} {body : List Stmt}
    (hsettled : settledBody params body) : GoodRoutine lastWriteProperty params body := by
  refine GoodRoutine.of_run fun scope env irParams s₀ s₁ s₂ value hrun => ?_
  refine Function.readsLastWrite_of_forall fun x => ?_
  obtain ⟨name, ret, hstart⟩ := hrun.start
  have hwhole := hrun.whole value
  have hnames : (params.zip irParams).map Prod.fst = params :=
    List.map_fst_zip (Nat.le_of_eq hrun.fit.length_eq)
  have hparams : TrailsCode x s₂.module.globals.toList (s₂.function.leave (some value)) scope {}
    (.enter x params) s₀ s₁ :=
    trails_storeParams hrun.begun hwhole hrun.begunOpen hrun.passedNumeric hrun.passed hrun.store
      (by rw [hnames]; rfl)
  have hbody := ((trails_walk s₂.module.globals.toList hwhole).block scope body s₁ s₂
    hrun.storedOpen hrun.block).2 env _ hrun.agree (settledBody_iff.mp hsettled x) hrun.stored
  obtain ⟨-, hleads⟩ :=
    hparams.trans hrun.blockKeeps.within hbody (tracks_start hstart hrun.nothing)
  refine passes_routine (R := Marks (s₂.function.leave (some value)) x scope s₂.storage
    (trailAll x (.enter x params) body)) hstart hrun.endedOpen
    (trails_setup hrun.ended.sound.function.setup) ?_
  rintro d rfl
  exact hleads [] (marks_start hrun.nothing)

end Lower

open Lower Ir

/-! ### Programs -/

theorem Program.settled_iff {p : Program} :
    p.settled ↔ settledBody [] p ∧ ∀ r ∈ routinesAll p, settledBody r.1 r.2 := by
  rw [Program.settled, Bool.and_eq_true, List.all_eq_true]

/-- **In a settled program a read sees the last write**, on every path through every generated
function. -/
theorem readsLastWrite_of_settled {tokens : List Token} {p : Program}
    (hparse : parse tokens = .ok p)
    {name sourceName target : String} {m : Module}
    (h : (generate name sourceName target p).1 = .ok m)
    (hsettled : p.settled) : ∀ f ∈ m.functions, f.ReadsLastWrite := by
  obtain ⟨hmain, hroutines⟩ := Program.settled_iff.mp hsettled
  exact good_of_generate h (allAgree_of_parse hparse) (lastWrite_routine hmain) fun r hr =>
    lastWrite_routine (hroutines r hr)

/-- A variable that is bound before a conditional, in both of its arms and in a loop, and read in
between. -/
def rebinding : String :=
  "x = 1\nc = 2\nIF c > x THEN\nx = 3\nELSE\nx = x + c\nENDIF\nWHILE x < 9 DO\n" ++
    "x = x + 1\ny = x\nENDWHILE\nOUTPUT y\n"

theorem rebinding_readsLastWrite : ∃ p m, parse (scan rebinding).tokens = .ok p ∧ p.settled ∧
    (generate "rebinding" "rebinding.pc" "none" p).1 = .ok m ∧
    m.functions.map (fun f => f.instrs.countP fun i => i.loadsFrom?.isSome) = [8] ∧
    ∀ f ∈ m.functions, f.ReadsLastWrite := by
  have hok : ((parse (scan rebinding).tokens).toOption.bind fun p =>
      (generate "rebinding" "rebinding.pc" "none" p).1.toOption.map fun m =>
        (p.settled, m.functions.map fun f => f.instrs.countP fun i => i.loadsFrom?.isSome)) =
          some (true, [8]) := by
    decide +kernel
  obtain ⟨p, hp, hok⟩ := Option.bind_eq_some_iff.mp hok
  obtain ⟨m, hm, hok⟩ := Option.map_eq_some_iff.mp hok
  obtain ⟨hsettled, hloads⟩ := Prod.mk.inj hok
  have hparse := eq_ok_of_toOption hp
  have h := eq_ok_of_toOption hm
  exact ⟨p, m, hparse, hsettled, h, hloads, readsLastWrite_of_settled hparse h hsettled⟩

/-- A variable that is bound first in both arms of a conditional, and read behind it. -/
def boundInBothArms : String :=
  "c = 1\nIF c == 1 THEN\nx = 1\nELSE\nx = 2\nENDIF\nOUTPUT x\n"

/-- **A read may miss the last write.**  The path through the first arm stores to `x.slot`, and what
is loaded behind the conditional is `x.slot.1`. -/
theorem not_readsLastWrite_boundInBothArms : ∃ p m, parse (scan boundInBothArms).tokens = .ok p ∧
    (generate "arms" "arms.pc" "none" p).1 = .ok m ∧ ∃ f ∈ m.functions, ¬ f.ReadsLastWrite := by
  have hok : ((parse (scan boundInBothArms).tokens).toOption.bind fun p =>
      (generate "arms" "arms.pc" "none" p).1.toOption.bind fun m => m.functions.head?.bind fun f =>
        (f.spot? lastWrite [] ["if.then", "if.end"] 0).map fun c => (c.code.head?, c.data)) =
      some (some (.load "t2" .i32 (.register "x.slot.1" (.ptr .i32))), ["x.slot", "c.slot"]) := by
    decide +kernel
  obtain ⟨p, hp, hok⟩ := Option.bind_eq_some_iff.mp hok
  obtain ⟨m, hm, hok⟩ := Option.bind_eq_some_iff.mp hok
  obtain ⟨f, hf, hok⟩ := Option.bind_eq_some_iff.mp hok
  obtain ⟨c, hspot, hc⟩ := Option.map_eq_some_iff.mp hok
  obtain ⟨hcode, hdata⟩ := Prod.mk.inj hc
  refine ⟨p, m, eq_ok_of_toOption hp, eq_ok_of_toOption hm, f, List.mem_of_mem_head? hf,
    fun h => ?_⟩
  obtain ⟨rest, hload⟩ := List.head?_eq_some_iff.mp hcode
  have hlast : LastStored "x" c.data "x.slot" := by
    rw [hdata]
    exact .here (Or.inl rfl) _
  have hslot : Draft.SlotOf "x" "x.slot.1" := Or.inr ⟨1, by decide +kernel⟩
  have hsame :=
    h c (Function.arrives_of_spot? (fun _ _ => trivial) hspot) _ rest hload "x.slot.1" "x" rfl hslot
    "x.slot" hlast
  exact absurd hsame (by decide)

end Pseudocode
