import Pseudocode.Proofs.Semantics.Machine
import Pseudocode.Proofs.Semantics.Source

/-!
What can be seen of a program and of its code.

A program is followed for one `n` after another, and the machine for one number of steps after
another.  If the machine ends as the program does where the program ends, and runs for at least `n`
steps where the program is given up on after `n` times, then nothing that can be seen tells them
apart: they print the same, and one of them ends or gets stuck if and only if the other does.
-/

namespace Pseudocode.Ir

/-- The machine does as a program does that is given up on later and later. -/
def Mirrors (m : Module) (f : Function) (exec : Nat → Progress) : Prop :=
  ∀ n, match exec n with
    | .done _ out => ∃ k, run m f k f.start = .returned (.word 0) out
    | .stuck out => ∃ k, run m f k f.start = .stuck out
    | .unfinished out => ∃ k c, n ≤ k ∧ run m f k f.start = .running c ∧ c.frame.output = out

namespace Mirrors

variable {m : Module} {f : Function} {exec : Nat → Progress}

/-- A run that is over ends as the program does, if only it is followed far enough. -/
theorem ended (h : Mirrors m f exec) (k : Nat) (hover : ∀ c, run m f k f.start ≠ .running c) :
    (∃ n σ out, exec n = .done σ out ∧ run m f k f.start = .returned (.word 0) out) ∨
      ∃ n out, exec n = .stuck out ∧ run m f k f.start = .stuck out := by
  have hcase := h (k + 1)
  cases hexec : exec (k + 1) with
  | done σ out =>
    simp only [hexec] at hcase
    obtain ⟨k', hk'⟩ := hcase
    exact Or.inl ⟨k + 1, σ, out, hexec, (run_unique hover (by simp [hk'])).trans hk'⟩
  | stuck out =>
    simp only [hexec] at hcase
    obtain ⟨k', hk'⟩ := hcase
    exact Or.inr ⟨k + 1, out, hexec, (run_unique hover (by simp [hk'])).trans hk'⟩
  | unfinished out =>
    simp only [hexec] at hcase
    obtain ⟨k', c, hle, hk', -⟩ := hcase
    rw [run_of_le (by omega) hover] at hk'
    exact absurd hk' (hover c)

theorem returns_iff (h : Mirrors m f exec) (d : Datum) (out : Output) :
    f.Returns m d out ↔ d = .word 0 ∧ ∃ n σ, exec n = .done σ out := by
  constructor
  · rintro ⟨k, hk⟩
    rcases h.ended k (by simp [hk]) with ⟨n, σ, out', hexec, hrun⟩ | ⟨n, out', -, hrun⟩
    · rw [hk, Verdict.returned.injEq] at hrun
      exact ⟨hrun.1, n, σ, by rw [hexec, hrun.2]⟩
    · rw [hk] at hrun
      simp at hrun
  · rintro ⟨rfl, n, σ, hexec⟩
    have hcase := h n
    simp only [hexec] at hcase
    exact hcase

theorem getsStuck_iff (h : Mirrors m f exec) (out : Output) :
    f.GetsStuck m out ↔ ∃ n, exec n = .stuck out := by
  constructor
  · rintro ⟨k, hk⟩
    rcases h.ended k (by simp [hk]) with ⟨n, σ, out', -, hrun⟩ | ⟨n, out', hexec, hrun⟩
    · rw [hk] at hrun
      simp at hrun
    · rw [hk, Verdict.stuck.injEq] at hrun
      exact ⟨n, by rw [hexec, hrun]⟩
  · rintro ⟨n, hexec⟩
    have hcase := h n
    simp only [hexec] at hcase
    exact hcase

/-- Whatever the program has printed, the machine has printed after some steps, and it has taken
more steps than the program has been followed or is over. -/
theorem printed (h : Mirrors m f exec) (n : Nat) :
    ∃ k, (run m f k f.start).output = (exec n).output ∧
    (n ≤ k ∨ ∀ c, run m f k f.start ≠ .running c) := by
  have hcase := h n
  cases hexec : exec n with
  | done σ out =>
    simp only [hexec] at hcase
    obtain ⟨k, hk⟩ := hcase
    exact ⟨k, by rw [hk]; rfl, Or.inr (by simp [hk])⟩
  | stuck out =>
    simp only [hexec] at hcase
    obtain ⟨k, hk⟩ := hcase
    exact ⟨k, by rw [hk]; rfl, Or.inr (by simp [hk])⟩
  | unfinished out =>
    simp only [hexec] at hcase
    obtain ⟨k, c, hle, hk, hout⟩ := hcase
    exact ⟨k, by rw [hk]; exact hout, Or.inl hle⟩

theorem prints_iff (h : Mirrors m f exec) (out : Output) :
    f.Prints m out ↔ ∃ n, out <+: (exec n).output := by
  constructor
  · rintro ⟨k, hk⟩
    obtain ⟨k', houtput, hlate⟩ := h.printed k
    refine ⟨k, hk.trans ?_⟩
    rw [← houtput]
    rcases hlate with hle | hover
    · exact output_run hle _
    · rcases Nat.le_total k k' with hle | hle
      · exact output_run hle _
      · simp only [run_of_le hle hover, List.prefix_refl]
  · rintro ⟨n, hn⟩
    obtain ⟨k, houtput, -⟩ := h.printed n
    exact ⟨k, by rw [houtput]; exact hn⟩

end Mirrors

end Pseudocode.Ir
