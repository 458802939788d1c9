import Pseudocode.Proofs.Lower.Statements

/-!
Generated modules are well formed.

Whatever tree code is generated for, be it one that no source reads as, the functions of the module
are well typed and their definitions dominate their uses.  Both follow from the invariant: it holds
where code generation begins, the statements of a program keep it, and where a function is finished
it gives both.
-/

namespace Pseudocode

open Ir Lower

variable {name sourceName target : String} {p : Program} {m : Module}

theorem runs_of_generate (h : (generate name sourceName target p).1 = .ok m) :
    ∃ s, Runs (program p) (.start name sourceName target) m s := by
  refine ⟨(outcome (program p) (.start name sourceName target)).2, ?_⟩
  exact Prod.ext h rfl

namespace Lower

/-- Code for a program is code for its statements, and then the function `main` returns zero. -/
theorem runs_program {s s' : State} (h : Runs (program p) s m s') :
    ∃ s₁, Runs (block .top p) s () s₁ ∧
      m = (s₁.module.addFunction (s₁.function.leave (some (.i32 0))).build).build := by
  obtain ⟨_, s₁, hblock, hrun₁⟩ := runs_bind.1 h
  obtain ⟨_, s₂, hleave, hrun₂⟩ := runs_bind.1 hrun₁
  obtain rfl := runs_leave.1 hleave
  rw [runs_get_bind] at hrun₂
  exact ⟨s₁, hblock, (runs_pure.1 hrun₂).1⟩

theorem sound_start (name sourceName target : String) :
    (State.start name sourceName target).Sound .top := by
  have hstorage : ∀ (symbol : Symbol) (slot : Slot),
      (State.start name sourceName target).storage[symbol]? ≠ some slot := by
    intro symbol slot
    show (∅ : Storage)[symbol]? ≠ some slot
    simp
  have hsubroutines : (State.start name sourceName target).subroutines = ∅ := rfl
  refine ⟨FunctionDraft.Sound.start "main" .i32 (by simp), ?_, ?_, trivial, ?_, ?_, Or.inl rfl, ?_,
    State.start_routines name sourceName target, ?_, ?_⟩
  · intro symbol slot hslot
    exact absurd hslot (hstorage symbol slot)
  · intro symbol slot hslot
    exact absurd hslot (hstorage symbol slot)
  · rw [hsubroutines]
    simp
  · rw [hsubroutines]
    simp
  · rw [hsubroutines]
    simp
  · rw [State.start_module]
    exact ⟨rfl, List.Subset.refl _, rfl⟩
  · rw [State.start_functions]
    simp

theorem opened_start (name sourceName target : String) :
    (State.start name sourceName target).function.Open := by
  rw [State.start_function]
  exact open_start "main" [] .i32

/-- Every function of a program is finished and refers to what there is, `main` among them. -/
theorem finished_functions {s₁ : State}
    (hblock : Runs (block .top p) (.start name sourceName target) () s₁) :
    ∀ f ∈ (s₁.module.addFunction (s₁.function.leave (some (.i32 0))).build).build.functions,
      Finished f ∧ f.Only s₁.Allows := by
  have hopen := opened_start name sourceName target
  have hs₁ := block_sound .top p _ _ (sound_start name sourceName target) hopen hblock
  obtain ⟨hkeeps, -⟩ := block_keeps .top p _ _ hopen hblock
  have hret : s₁.function.ret = .i32 := hkeeps.steps.signature_eq.2.2
  have hmain : (s₁.function.leave (some (.i32 0))).Sound s₁.Allows := by
    refine hs₁.function.terminate ⟨?_, ?_⟩
    · rw [hret]
      rfl
    · simp only [Terminator.operands, Option.toList_some, List.mem_singleton]
      rintro v rfl
      trivial
  intro f hf
  have hpush : f ∈ (s₁.module.functions.push (s₁.function.leave (some (.i32 0))).build).toList := hf
  rw [Array.mem_toList_iff, Array.mem_push] at hpush
  rcases hpush with hold | rfl
  · exact hs₁.functions f hold
  · exact Finished.of_steps hmain (hkeeps.steps.terminate _)

theorem finished_program {s : State} (h : Runs (program p) (.start name sourceName target) m s) :
    ∀ f ∈ m.functions, Finished f := by
  obtain ⟨s₁, hblock, rfl⟩ := runs_program h
  exact fun f hf => (finished_functions hblock f hf).1

end Lower

/-! ### Generated modules -/

/-- A program whose tree is at odds with itself: the loop makes a number with a fraction of `x`, and
the condition after it still reads `x` as an integer. -/
def retyping : Program :=
  let int : Shape := ⟨.int, 0⟩
  let one : Expr := .constant (.int 1) int
  [.subroutine "next" [⟨"n", .int⟩]
    [.ifThen (.binary .gt (.var "n" int) one int) [.ret (.binary .add (.var "n" int) one int)]
      .none] .double,
   .assign ⟨.var "x" int, one, .int⟩,
   .whileLoop (.binary .lt (.var "x" int) one int)
    [.assign ⟨.var "x" ⟨.double, 0⟩, .call "next" [.var "x" int] .double, .double⟩],
   .assign ⟨.var "s" ⟨.string, 3⟩, .constant (.string "ab") ⟨.string, 3⟩, .string⟩,
   .output (.var "x" ⟨.double, 0⟩)]

theorem generate_retyping : ∃ m, (generate "retyping" "retyping.pc" "none" retyping).1 = .ok m ∧
    m.functions.map Function.name = ["next", "main"] := by
  have hok : ((generate "retyping" "retyping.pc" "none" retyping).1.toOption.map fun m =>
      m.functions.map Function.name) = some ["next", "main"] := by decide +kernel
  obtain ⟨m, hm, hnames⟩ := Option.map_eq_some_iff.mp hok
  exact ⟨m, eq_ok_of_toOption hm, hnames⟩

/-- **Every generated function is well typed**, whatever the tree it is generated for. -/
theorem wellTyped_of_generate {name sourceName target : String} {p : Program} {m : Module}
    (h : (generate name sourceName target p).1 = .ok m) : ∀ f ∈ m.functions, f.WellTyped := by
  obtain ⟨s, hrun⟩ := runs_of_generate h
  intro f hf
  exact (finished_program hrun f hf).wellTyped

theorem retyping_wellTyped : ∃ m, (generate "retyping" "retyping.pc" "none" retyping).1 = .ok m ∧
    m.functions.map Function.name = ["next", "main"] ∧ ∀ f ∈ m.functions, f.WellTyped := by
  obtain ⟨m, hm, hnames⟩ := generate_retyping
  exact ⟨m, hm, hnames, wellTyped_of_generate hm⟩

/-- **In every generated function, definitions dominate their uses**, whatever the tree it is
generated for. -/
theorem dominated_of_generate {name sourceName target : String} {p : Program} {m : Module}
    (h : (generate name sourceName target p).1 = .ok m) :
    ∀ f ∈ m.functions, ∃ setup, f.Dominated setup := by
  obtain ⟨s, hrun⟩ := runs_of_generate h
  intro f hf
  exact (finished_program hrun f hf).dominated

theorem retyping_dominated : ∃ m, (generate "retyping" "retyping.pc" "none" retyping).1 = .ok m ∧
    m.functions.map Function.name = ["next", "main"] ∧
    ∀ f ∈ m.functions, ∃ setup, f.Dominated setup := by
  obtain ⟨m, hm, hnames⟩ := generate_retyping
  exact ⟨m, hm, hnames, dominated_of_generate hm⟩

end Pseudocode
