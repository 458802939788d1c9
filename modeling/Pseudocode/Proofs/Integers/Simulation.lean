import Pseudocode.Proofs.Integers.Expressions

/-!
Runs of the machine that follow runs of a program.

`Follows` compares what becomes of a part of a program with what becomes of the machine.  Where the
part of the program ends, the machine comes to the place behind the code, with the same output and
with the new store in its slots.  Where it gets stuck, so does the machine.  And where the program
is given up on after `n` times, the machine is still running after `n` steps.  This last point is
what rules out that the machine ends where the program does not: the number of steps grows with the
number of times that a loop has run, since every turn takes a step.

`Simulates` is the same for all stores at once.  Parts are put together as the program is: one after
the other, by a test, and by a loop.
-/

namespace Pseudocode.Lower

open Ir

theorem Represents.mono {F : FunctionDraft} {storage storage' : Storage} {φ : Frame} {σ : Store}
    (h : Represents F storage φ σ)
    (hslots : ∀ x name, storage'[(⟨x, .top⟩ : Symbol)]? = some (intSlot name) →
      storage[(⟨x, .top⟩ : Symbol)]? = some (intSlot name)) : Represents F storage' φ σ :=
  ⟨h.placed, fun x name hslot => h.values x name (hslots x name hslot)⟩

/-! ### One run -/

/-- From `c`, the machine does as the program does. -/
def Follows (m : Module) (F : FunctionDraft) (n : Nat) (c : Config) (finish : Frame → Config)
    (after : Storage) : Progress → Prop
  | .done σ out => ∃ φ, Reaches m F.build c (finish φ) ∧ Represents F after φ σ ∧ φ.output = out
  | .stuck out => Stalls m F.build c out
  | .unfinished out => RunsOn m F.build n c out

namespace Follows

variable {m : Module} {F : FunctionDraft} {n n' : Nat} {c c' : Config}
  {middle finish : Frame → Config} {between after after' : Storage} {p : Progress}

theorem mono (h : Follows m F n c finish after p) (hn : n' ≤ n) :
    Follows m F n' c finish after p := by
  cases p with
  | done σ out => exact h
  | stuck out => exact h
  | unfinished out => exact RunsOn.mono h hn

theorem reached (hc : Reaches m F.build c c') (h : Follows m F n c' finish after p) :
    Follows m F n c finish after p := by
  cases p with
  | done σ out =>
    obtain ⟨φ, hreaches, hφ⟩ := h
    exact ⟨φ, hc.trans hreaches, hφ⟩
  | stuck out => exact hc.stalls h
  | unfinished out => exact hc.runsOn h

theorem step (hstep : Ir.step m F.build c = .running c') (h : Follows m F n c' finish after p) :
    Follows m F (n + 1) c finish after p := by
  cases p with
  | done σ out => exact reached (Reaches.of_step hstep) h
  | stuck out => exact reached (Reaches.of_step hstep) h
  | unfinished out => exact RunsOn.step hstep h

theorem andThen {next : Store → Output → Progress} (h : Follows m F n c middle between p)
    (hnext : ∀ σ φ, Represents F between φ σ →
      Follows m F n (middle φ) finish after (next σ φ.output)) :
    Follows m F n c finish after (p.andThen next) := by
  cases p with
  | done σ out =>
    obtain ⟨φ, hreaches, hφ, rfl⟩ := h
    exact (hnext σ φ hφ).reached hreaches
  | stuck out => exact h
  | unfinished out => exact h

end Follows

/-! ### All runs -/

/-- Between two places, the machine does as a part of the program does. -/
def Simulates (m : Module) (F : FunctionDraft) (n : Nat) (start finish : Frame → Config)
    (before after : Storage) (run : Store → Output → Progress) : Prop :=
  ∀ σ φ, Represents F before φ σ → Follows m F n (start φ) finish after (run σ φ.output)

namespace Simulates

variable {m : Module} {F : FunctionDraft} {n n' : Nat} {start middle finish : Frame → Config}
  {before before' between after after' : Storage} {run run' : Store → Output → Progress}

theorem done (h : ∀ φ, Reaches m F.build (start φ) (finish φ)) :
    Simulates m F n start finish before before .done := by
  intro σ φ hφ
  exact ⟨φ, h φ, hφ, rfl⟩

theorem mono (h : Simulates m F n start finish before after run) (hn : n' ≤ n) :
    Simulates m F n' start finish before after run :=
  fun σ φ hφ => (h σ φ hφ).mono hn

theorem reached (h : Simulates m F n middle finish before after run)
    (hstart : ∀ φ, Reaches m F.build (start φ) (middle φ)) :
    Simulates m F n start finish before after run :=
  fun σ φ hφ => (h σ φ hφ).reached (hstart φ)

theorem andThen (h : Simulates m F n start middle before between run)
    (h' : Simulates m F n middle finish between after run') :
    Simulates m F n start finish before after fun σ out => (run σ out).andThen run' :=
  fun σ φ hφ => (h σ φ hφ).andThen h'

/-- Going on behind the end, where fewer slots are looked at. -/
theorem reaching (h : Simulates m F n start middle before between run)
    (hfinish : ∀ φ, Reaches m F.build (middle φ) (finish φ))
    (hslots : ∀ x name, after[(⟨x, .top⟩ : Symbol)]? = some (intSlot name) →
      between[(⟨x, .top⟩ : Symbol)]? = some (intSlot name)) :
    Simulates m F n start finish before after run := by
  intro σ φ hφ
  have hrun := h σ φ hφ
  cases hprogress : run σ φ.output with
  | done σ' out =>
    rw [hprogress] at hrun
    obtain ⟨φ', hreaches, hφ', hout⟩ := hrun
    exact ⟨φ', hreaches.trans (hfinish φ'), hφ'.mono hslots, hout⟩
  | stuck out => rw [hprogress] at hrun; exact hrun
  | unfinished out => rw [hprogress] at hrun; exact hrun

theorem restrict (h : Simulates m F n start finish before after run)
    (hslots : ∀ x name, before[(⟨x, .top⟩ : Symbol)]? = some (intSlot name) →
      before'[(⟨x, .top⟩ : Symbol)]? = some (intSlot name)) :
    Simulates m F n start finish before' after run :=
  fun σ φ hφ => h σ φ (hφ.mono hslots)

/-- Code for a value, and then what is done with it. -/
theorem value {is rest : List Instr} {t : Terminator} {k : Nat} {value : Store → Option Int32}
    {holds : Frame → Int32 → Prop} {next : Store → Int32 → Output → Progress} (hF : F.OnlySlots)
    (hplace : ∀ φ, start φ = ⟨is ++ rest, t, φ⟩ ∧ middle φ = ⟨rest, t, φ⟩)
    (hcode : ∀ σ φ, Represents F before φ σ → Computes m is k φ (value σ) holds)
    (hnext : ∀ σ φ w, Represents F before φ σ → holds φ w →
      Follows m F n (middle φ) finish after (next σ w φ.output)) :
    Simulates m F n start finish before after fun σ out => .withValue (value σ) out
    fun w => next σ w out := by
  intro σ φ hφ
  have hcomputes := hcode σ φ hφ
  show Follows m F n (start φ) finish after (.withValue (value σ) φ.output _)
  cases hw : value σ with
  | none =>
    rw [hw] at hcomputes
    show Stalls m F.build (start φ) φ.output
    rw [(hplace φ).1]
    exact stalls_code hcomputes rest t
  | some w =>
    rw [hw] at hcomputes
    obtain ⟨φ', hexec, hkeeps, hholds⟩ := hcomputes
    have hfollows := hnext σ φ' w (hφ.keepsBelow hF hkeeps) hholds
    rw [hkeeps.output] at hfollows
    refine hfollows.reached ?_
    rw [(hplace φ).1, (hplace φ').2]
    exact reaches_code hexec rest t

/-- A test, which takes a step, and then one of two parts. -/
theorem test {is rest : List Instr} {t : Terminator} {k : Nat} {value : Store → Option Int32}
    {truth : Value} {yes no : Frame → Config} (hF : F.OnlySlots)
    (hplace : ∀ φ, start φ = ⟨is ++ rest, t, φ⟩ ∧ middle φ = ⟨rest, t, φ⟩)
    (hcode : ∀ σ φ, Represents F before φ σ →
      Computes m is k φ (value σ) fun φ' => TellsNonzero m φ' truth)
    (hstep : ∀ φ b, φ.value m truth = some (.bit b) →
      step m F.build (middle φ) = .running (if b then yes φ else no φ))
    (hyes : Simulates m F n yes finish before after run)
    (hno : Simulates m F n no finish before after run') :
    Simulates m F (n + 1) start finish before after fun σ out =>
      .withValue (value σ) out fun w => if w ≠ 0 then run σ out else run' σ out := by
  refine Simulates.value hF hplace hcode ?_
  intro σ φ w hφ htruth
  have hnext := hstep φ _ htruth
  by_cases hzero : w ≠ 0
  · rw [if_pos hzero]
    rw [decide_eq_true hzero, if_pos rfl] at hnext
    exact (hyes σ φ hφ).step hnext
  · rw [if_neg hzero]
    rw [decide_eq_false hzero, if_neg (by decide)] at hnext
    exact (hno σ φ hφ).step hnext

/-- **A loop that tests at its end.**  The body is followed by a test that leads back to where it
begins. -/
theorem repeatWhile {value : Store → Option Int32} {exit : Frame → Config}
    (hframe : ∀ φ, (start φ).frame = φ) (hbody : Simulates m F n start middle before after run)
    (htest : ∀ k run', Simulates m F k start exit before after run' →
      Simulates m F (k + 1) middle exit after after fun σ out =>
        .withValue (value σ) out fun w => if w ≠ 0 then run' σ out else .done σ out) :
    ∀ k ≤ n, Simulates m F k start exit before after (Pseudocode.repeatWhile run value k) := by
  intro k
  induction k with
  | zero =>
    intro _ σ φ _
    exact ⟨0, start φ, Nat.le_refl 0, rfl, by rw [hframe]⟩
  | succ k ih =>
    intro hk
    exact (hbody.mono hk).andThen (htest k _ (ih (by omega)))

end Simulates

end Pseudocode.Lower
