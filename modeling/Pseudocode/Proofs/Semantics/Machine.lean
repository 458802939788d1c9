import Pseudocode.Ir.Render
import Pseudocode.Proofs.Semantics.Basic

/-!
A machine for generated code.

The machine runs one function.  It has registers, memory cells that are handed out one by one, and
what has been printed.  It runs the instructions of a block one after another and then does what the
terminator says; a branch goes to the first block of its label.  Where an instruction has no
meaning, because an operand is not of the kind it needs or because there is no quotient, the machine
is stuck.

Only code for integer programs is given a meaning: words, truth values, and printing by the formats
for a number and for a line break, which are known by their bytes.

A run is a function of the number of steps, so two runs from one place are parts of the same run
(`run_add`).
-/

namespace Pseudocode.Ir

variable {j k n : Nat} {φ φ' : Frame} {out : Output}

/-! ### Memory -/

/-- What a register or a cell holds. -/
inductive Datum where
  | bit (b : Bool)
  | word (w : Int32)
  /-- The address of a cell. -/
  | cell (i : Nat)
  /-- The address of the first of these bytes. -/
  | text (bytes : List UInt8)
  deriving DecidableEq, Repr

/-- Registers, memory cells and what has been printed.  A cell holds nothing until it is stored
to. -/
structure Frame where
  registers : String → Option Datum := fun _ => none
  cells : Array (Option Datum) := #[]
  output : Output := []

namespace Frame

/-- Puts something into a register. -/
def put (φ : Frame) (dest : String) (d : Datum) : Frame :=
  { φ with registers := fun name => if name = dest then some d else φ.registers name }

/-- Stores something in a cell. -/
def store (φ : Frame) (i : Nat) (d : Datum) : Frame :=
  { φ with cells := φ.cells.setIfInBounds i (some d) }

/-- Prints something. -/
def print (φ : Frame) (item : Printed) : Frame :=
  { φ with output := φ.output ++ [item] }

/-- What a value stands for.  The address of a constant is taken for that of its first byte. -/
def value (m : Module) (φ : Frame) : Value → Option Datum
  | .register name _ => φ.registers name
  | .global name _ => (m.globals.find? (·.name == name)).map fun g => .text g.bytes
  | .int n .i32 => some (.word (.ofInt n))
  | _ => none

/-- The word that a value stands for. -/
def word? (m : Module) (φ : Frame) (v : Value) : Option Int32 :=
  match φ.value m v with
  | some (.word w) => some w
  | _ => none

/-- The cell that a value is the address of. -/
def cell? (m : Module) (φ : Frame) (v : Value) : Option Nat :=
  match φ.value m v with
  | some (.cell i) => some i
  | _ => none

/-- The bytes that a value is the address of. -/
def text? (m : Module) (φ : Frame) (v : Value) : Option (List UInt8) :=
  match φ.value m v with
  | some (.text bytes) => some bytes
  | _ => none

end Frame

/-! ### Instructions -/

/-- What an operation makes of two words. -/
def ArithOp.result? : ArithOp → Int32 → Int32 → Option Int32
  | add, a, b => some (a + b)
  | sub, a, b => some (a - b)
  | mul, a, b => some (a * b)
  | sdiv, a, b => quotient? a b
  | srem, a, b => remainder? a b
  | _, _, _ => none

/-- Does a comparison of signed words hold? -/
def IntPred.holds : IntPred → Int32 → Int32 → Bool
  | eq, a, b => a = b
  | ne, a, b => a ≠ b
  | slt, a, b => a < b
  | sle, a, b => a ≤ b
  | sgt, a, b => a > b
  | sge, a, b => a ≥ b

/-- What is printed for the arguments of `printf`: by the format `%d` a number, and by a format that
is a line break alone a line break. -/
def printed? (m : Module) (φ : Frame) : List Value → Option Printed
  | [format] => do
    if (← φ.text? m format) = utf8 "\n" ++ [0] then some .lineBreak else none
  | [format, v] => do
    if (← φ.text? m format) = utf8 "%d" ++ [0] then return .number (← φ.word? m v) else none
  | _ => none

/-- Runs an instruction.  What `printf` returns is the number of characters printed. -/
def Instr.exec (m : Module) (φ : Frame) : Instr → Option Frame
  | alloca dest _ => some ({ φ with cells := φ.cells.push none }.put dest (.cell φ.cells.size))
  | load dest _ ptr => do
    let d ← φ.cells[← φ.cell? m ptr]?
    return φ.put dest (← d)
  | store v ptr => do return φ.store (← φ.cell? m ptr) (← φ.value m v)
  | arith dest op lhs rhs => do
    return φ.put dest (.word (← op.result? (← φ.word? m lhs) (← φ.word? m rhs)))
  | icmp dest pred lhs rhs => do
    return φ.put dest (.bit (pred.holds (← φ.word? m lhs) (← φ.word? m rhs)))
  | cast dest .zext v .i32 =>
    match φ.value m v with
    | some (.bit b) => some (φ.put dest (.word (truthWord b)))
    | _ => none
  | gep dest _ base [.int 0 .i32, .int 0 .i32] _ => do return φ.put dest (.text (← φ.text? m base))
  | call (some dest) "printf" _ args => do
    let item ← printed? m φ args
    return (φ.print item).put dest (.word (.ofNat item.text.length))
  | _ => none

/-- Runs instructions, one after another.  If one of them has no meaning, what has been printed is
told. -/
def execCode (m : Module) : List Instr → Frame → Except Output Frame
  | [], φ => .ok φ
  | i :: is, φ =>
    match i.exec m φ with
    | some φ' => execCode m is φ'
    | none => .error φ.output

/-! ### Runs -/

/-- Where the machine is: what is left of a block, and its memory. -/
structure Config where
  code : List Instr
  exit : Terminator
  frame : Frame

/-- What has become of a run. -/
inductive Verdict where
  | running (c : Config)
  | returned (d : Datum) (out : Output)
  | stuck (out : Output)

/-- What has been printed. -/
def Verdict.output : Verdict → Output
  | running c => c.frame.output
  | returned _ out => out
  | stuck out => out

/-- The beginning of a block. -/
def Block.enter (b : Block) (φ : Frame) : Config :=
  ⟨b.instrs, b.terminator, φ⟩

/-- Goes on at a label. -/
def Function.goto (f : Function) (label : String) (φ : Frame) : Verdict :=
  match f.block? label with
  | some b => .running (b.enter φ)
  | none => .stuck φ.output

/-- What a terminator does. -/
def Terminator.exec (m : Module) (f : Function) (φ : Frame) : Terminator → Verdict
  | ret (some v) =>
    match φ.value m v with
    | some d => .returned d φ.output
    | none => .stuck φ.output
  | br label => f.goto label φ
  | condBr condition ifTrue ifFalse =>
    match φ.value m condition with
    | some (.bit b) => f.goto (if b then ifTrue else ifFalse) φ
    | _ => .stuck φ.output
  | _ => .stuck φ.output

/-- One step. -/
def step (m : Module) (f : Function) (c : Config) : Verdict :=
  match c.code with
  | i :: rest =>
    match i.exec m c.frame with
    | some φ => .running { c with code := rest, frame := φ }
    | none => .stuck c.frame.output
  | [] => c.exit.exec m f c.frame

/-- So many steps, or fewer if the run is over before. -/
def run (m : Module) (f : Function) : Nat → Config → Verdict
  | 0, c => .running c
  | k + 1, c =>
    match step m f c with
    | .running c' => run m f k c'
    | v => v

namespace Function

/-- Where a function is entered. -/
def start (f : Function) : Config :=
  match f.blocks with
  | b :: _ => b.enter {}
  | [] => ⟨[], .unreachable, {}⟩

/-- Does running the function print this, and perhaps more? -/
def Prints (m : Module) (f : Function) (out : Output) : Prop :=
  ∃ k, out <+: (run m f k f.start).output

/-- Does the function return this, having printed that? -/
def Returns (m : Module) (f : Function) (d : Datum) (out : Output) : Prop :=
  ∃ k, run m f k f.start = .returned d out

/-- Does the function get stuck, having printed this? -/
def GetsStuck (m : Module) (f : Function) (out : Output) : Prop :=
  ∃ k, run m f k f.start = .stuck out

end Function

/-! ### Parts of a run -/

section

variable {m : Module} {f : Function}

theorem run_add (j k : Nat) (c : Config) :
    run m f (j + k) c = match run m f j c with
      | .running c' => run m f k c'
      | v => v := by
  induction j generalizing c with
  | zero => rw [Nat.zero_add, run]
  | succ j ih =>
    rw [Nat.succ_add, run, run]
    cases step m f c with
    | running c' => exact ih c'
    | returned d out => rfl
    | stuck out => rfl

theorem run_of_le {c : Config} (hjk : j ≤ k) (hover : ∀ c', run m f j c ≠ .running c') :
    run m f k c = run m f j c := by
  obtain ⟨d, rfl⟩ := Nat.exists_eq_add_of_le hjk
  rw [run_add]
  cases h : run m f j c with
  | running c' => exact absurd h (hover c')
  | returned d out => rfl
  | stuck out => rfl

theorem run_unique {c : Config} (hj : ∀ c', run m f j c ≠ .running c')
    (hk : ∀ c', run m f k c ≠ .running c') : run m f j c = run m f k c := by
  rcases Nat.le_total j k with hjk | hkj
  · exact (run_of_le hjk hj).symm
  · exact run_of_le hkj hk

theorem output_exec {i : Instr} (h : i.exec m φ = some φ') : φ.output <+: φ'.output := by
  revert h
  fun_cases Instr.exec m φ i <;> intro h
  all_goals simp only [Option.bind_eq_bind, Option.bind_eq_some_iff, Option.pure_def,
    Option.some.injEq, reduceCtorEq] at h
  · rw [← h]; exact List.prefix_refl _
  · obtain ⟨_, -, _, -, _, -, rfl⟩ := h; exact List.prefix_refl _
  · obtain ⟨_, -, _, -, rfl⟩ := h; exact List.prefix_refl _
  · obtain ⟨_, -, _, -, _, -, rfl⟩ := h; exact List.prefix_refl _
  · obtain ⟨_, -, _, -, rfl⟩ := h; exact List.prefix_refl _
  · rw [← h]; exact List.prefix_refl _
  · obtain ⟨_, -, rfl⟩ := h; exact List.prefix_refl _
  · obtain ⟨item, -, rfl⟩ := h; exact List.prefix_append _ [item]

theorem output_goto (f : Function) (label : String) (φ : Frame) :
    (f.goto label φ).output = φ.output := by
  rw [Function.goto]
  cases f.block? label <;> rfl

theorem output_terminator (t : Terminator) (φ : Frame) : (t.exec m f φ).output = φ.output := by
  fun_cases Terminator.exec m f φ t
  · rfl
  · rfl
  · exact output_goto f _ φ
  · exact output_goto f _ φ
  all_goals rfl

theorem output_step (c : Config) : c.frame.output <+: (step m f c).output := by
  rw [step]
  cases hcode : c.code with
  | nil =>
    show c.frame.output <+: (c.exit.exec m f c.frame).output
    simp only [output_terminator, List.prefix_refl]
  | cons i rest =>
    cases hexec : i.exec m c.frame with
    | none =>
      simp only [hexec]
      exact List.prefix_refl _
    | some φ =>
      simp only [hexec]
      exact output_exec hexec

/-- What is printed is not taken back. -/
theorem output_run (hjk : j ≤ k) (c : Config) : (run m f j c).output <+: (run m f k c).output := by
  have hfrom : ∀ (d : Nat) (c : Config), c.frame.output <+: (run m f d c).output := by
    intro d
    induction d with
    | zero => intro c; exact List.prefix_refl _
    | succ d ih =>
      intro c
      have hstep := output_step (m := m) (f := f) c
      rw [run]
      cases hnext : step m f c with
      | running c' =>
        rw [hnext] at hstep
        exact hstep.trans (ih c')
      | returned d out => rw [hnext] at hstep; exact hstep
      | stuck out => rw [hnext] at hstep; exact hstep
  obtain ⟨d, rfl⟩ := Nat.exists_eq_add_of_le hjk
  rw [run_add]
  cases run m f j c with
  | running c' => exact hfrom d c'
  | returned d out => exact List.prefix_refl _
  | stuck out => exact List.prefix_refl _

/-! ### Getting somewhere -/

/-- The machine comes from one place to another. -/
def Reaches (m : Module) (f : Function) (c c' : Config) : Prop :=
  ∃ k, run m f k c = .running c'

/-- The machine gets stuck, having printed this. -/
def Stalls (m : Module) (f : Function) (c : Config) (out : Output) : Prop :=
  ∃ k, run m f k c = .stuck out

/-- The machine is still running after `n` steps or more, having printed this. -/
def RunsOn (m : Module) (f : Function) (n : Nat) (c : Config) (out : Output) : Prop :=
  ∃ k c', n ≤ k ∧ run m f k c = .running c' ∧ c'.frame.output = out

namespace Reaches

variable {c c' c'' : Config}

theorem refl (c : Config) : Reaches m f c c :=
  ⟨0, rfl⟩

theorem trans (h₁ : Reaches m f c c') (h₂ : Reaches m f c' c'') : Reaches m f c c'' := by
  obtain ⟨j, hj⟩ := h₁
  obtain ⟨k, hk⟩ := h₂
  refine ⟨j + k, ?_⟩
  rw [run_add, hj]
  exact hk

theorem of_step (h : step m f c = .running c') : Reaches m f c c' := by
  refine ⟨1, ?_⟩
  rw [run, h]
  rfl

theorem stalls (h₁ : Reaches m f c c') (h₂ : Stalls m f c' out) : Stalls m f c out := by
  obtain ⟨j, hj⟩ := h₁
  obtain ⟨k, hk⟩ := h₂
  refine ⟨j + k, ?_⟩
  rw [run_add, hj]
  exact hk

theorem runsOn (h₁ : Reaches m f c c') (h₂ : RunsOn m f n c' out) : RunsOn m f n c out := by
  obtain ⟨j, hj⟩ := h₁
  obtain ⟨k, c₁, hk, hrun, hout⟩ := h₂
  refine ⟨j + k, c₁, by omega, ?_, hout⟩
  rw [run_add, hj]
  exact hrun

end Reaches

theorem RunsOn.mono {n' : Nat} {c : Config} (h : RunsOn m f n c out) (hn : n' ≤ n) :
    RunsOn m f n' c out := by
  obtain ⟨k, c', hk, hrun⟩ := h
  exact ⟨k, c', by omega, hrun⟩

theorem RunsOn.step {c c' : Config} (hstep : step m f c = .running c') (h : RunsOn m f n c' out) :
    RunsOn m f (n + 1) c out := by
  obtain ⟨k, c₁, hk, hrun, hout⟩ := h
  refine ⟨k + 1, c₁, by omega, ?_, hout⟩
  rw [run, hstep]
  exact hrun

/-- Instructions that are run one after another are run by the machine. -/
theorem reaches_code {is : List Instr} (h : execCode m is φ = .ok φ') (rest : List Instr)
    (t : Terminator) : Reaches m f ⟨is ++ rest, t, φ⟩ ⟨rest, t, φ'⟩ := by
  induction is generalizing φ with
  | nil =>
    rw [execCode, Except.ok.injEq] at h
    rw [h]
    exact Reaches.refl _
  | cons i is ih =>
    rw [execCode] at h
    cases hexec : i.exec m φ with
    | none => simp [hexec] at h
    | some φ₁ =>
      simp only [hexec] at h
      refine (Reaches.of_step ?_).trans (ih h)
      simp only [step, List.cons_append, hexec]

theorem stalls_code {is : List Instr} (h : execCode m is φ = .error out) (rest : List Instr)
    (t : Terminator) : Stalls m f ⟨is ++ rest, t, φ⟩ out := by
  induction is generalizing φ with
  | nil => simp [execCode] at h
  | cons i is ih =>
    rw [execCode] at h
    cases hexec : i.exec m φ with
    | none =>
      simp only [hexec, Except.error.injEq] at h
      refine ⟨1, ?_⟩
      simp only [run, step, List.cons_append, hexec, h]
    | some φ₁ =>
      simp only [hexec] at h
      have hstep : step m f ⟨i :: is ++ rest, t, φ⟩ = .running ⟨is ++ rest, t, φ₁⟩ := by
        simp only [step, List.cons_append, hexec]
      exact (Reaches.of_step hstep).stalls (ih h)

theorem execCode_append (m : Module) (is js : List Instr) (φ : Frame) :
    execCode m (is ++ js) φ = execCode m is φ >>= execCode m js := by
  induction is generalizing φ with
  | nil => rfl
  | cons i is ih =>
    rw [List.cons_append, execCode, execCode]
    cases i.exec m φ with
    | none => rfl
    | some φ' => exact ih φ'

end

end Pseudocode.Ir
