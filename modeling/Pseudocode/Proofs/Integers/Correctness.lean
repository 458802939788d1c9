import Pseudocode.Proofs.Grammar.Statements
import Pseudocode.Proofs.Integers.Branches
import Pseudocode.Proofs.Semantics.Mirror

/-!
Generated code does as the program does.

Every statement of integers is implemented by its code, by one case for each kind of statement.  For
a whole program that compares, for every `n`, the run that gives up on loops after `n` times with a
run of the machine from the beginning of `main`.  All that can be seen of either follows: a run of
the machine is determined by where it begins, and it goes on as long as the program does, so the
machine cannot print or return what the program does not.
-/

namespace Pseudocode

/-! ### Statements -/

theorem Progress.andThen_done (p : Progress) : p.andThen .done = p := by
  cases p <;> rfl

theorem Expr.Integral.mono {bound bound' : String → Prop} {e : Expr} (he : e.Integral bound)
    (h : ∀ x, bound x → bound' x) : e.Integral bound' := by
  cases e with
  | constant literal shape =>
    cases literal with
    | int n => exact he
    | _ => exact absurd he (by simp [Expr.Integral])
  | var name shape => exact ⟨h name he.1, he.2⟩
  | binary op lhs rhs shape =>
    exact ⟨Expr.Integral.mono he.1 h, Expr.Integral.mono he.2.1 h, he.2.2⟩
  | negate operand shape => exact ⟨Expr.Integral.mono he.1 h, he.2⟩
  | _ => exact absurd he (by simp [Expr.Integral])

namespace Lower

open Ir

variable {bound : String → Prop}

/-- A loop that counts: its step adds one, and its test is made in integers. -/
theorem implements_for {init : Assignment} {limit : Expr} {body : Lowering Unit}
    {names : List String} {runBody : Nat → Store → Output → Progress} (hinit : init.Integral bound)
    (hlimit : limit.Integral (also init.binds bound))
    (hbody : Implements body (also init.binds bound) (also names (also init.binds bound)) runBody)
    (hbodyOpen : KeepsOpen .top body) :
    Implements (do
        assign .top init
        let test ← counterTest init limit
        loop .top "for" body (assign .top (counterStep init)) test) bound
        (also names (also init.binds bound))
      fun n σ out => (init.exec σ out).andThen (repeatWhile
        (fun σ out => (runBody n σ out).andThen (increment init.target.name))
        (notBeyond init.target.name limit) n) := by
  obtain ⟨x, shape, htarget, -⟩ := hinit.2.2
  have hname : init.target.name = x := by rw [htarget]; rfl
  have hbinds : init.binds = [x] := by rw [Assignment.binds, htarget]
  have hx : also names (also init.binds bound) x := Or.inr (Or.inl (by rw [hbinds]; simp))
  -- The test has the type of both sides, so nothing is converted.
  have htest : counterTest init limit =
      pure (.binary .le (.var x ⟨.int, 0⟩) limit ⟨.int, 0⟩) := by
    rw [counterTest, hinit.2.1, hlimit.ty, hname]
    rfl
  have hstep : (counterStep init).Integral (also names (also init.binds bound)) := by
    refine ⟨⟨⟨?_, hinit.2.1⟩, rfl, hinit.2.1⟩, hinit.2.1, _, _, rfl, hinit.2.1⟩
    rw [hname]
    exact hx
  have hstepExec : (counterStep init).exec = increment init.target.name := by
    funext σ out
    show Progress.withValue (Expr.eval σ (counterStep init).value) out _ =
      Progress.withValue (σ _) out _
    show Progress.withValue ((σ init.target.name).bind fun a => some (a + 1)) out _ = _
    cases σ init.target.name <;> rfl
  have hstepBinds : also (counterStep init).binds (also names (also init.binds bound)) =
      also names (also init.binds bound) := by
    refine also_eq ?_
    show ∀ y ∈ [init.target.name], _
    rw [hname]
    simpa using hx
  have hstepCode := implements_assign hstep
  rw [hstepBinds, hstepExec] at hstepCode
  have hloop : Implements (loop .top "for" body (assign .top (counterStep init))
      (.binary .le (.var x ⟨.int, 0⟩) limit ⟨.int, 0⟩)) _ _ _ :=
    implements_loop hbody hbodyOpen hstepCode (fun _ _ => keeps_assign)
      ⟨⟨hx, rfl⟩, hlimit.mono fun _ => Or.inr, rfl⟩
  have hboth := (implements_assign hinit).andThen (fun _ _ => keeps_assign) hloop
    (keeps_loop hbodyOpen fun _ _ => keeps_assign)
  simp only [htest, pure_bind]
  rw [hname] at hboth ⊢
  exact hboth

theorem elsePart_alone (part : ElsePart) (h : elsePart? .top part = none) (n : Nat) :
    part.exec n = .done := by
  cases part with
  | none => rfl
  | body body => simp [elsePart?] at h
  | elseIf condition body rest => simp [elsePart?] at h

mutual

/-- **Code for a statement of integers does as the statement does.** -/
theorem statement_implements (st : Stmt) {bound : String → Prop} (hst : st.Integral bound) :
    Implements (statement .top st) bound (also st.binds bound) fun n => st.exec n := by
  rw [statement.eq_def]
  refine Implements.tell ?_ _
  cases st with
  | expr e =>
    show Implements _ _ (also [] bound) _
    rw [also_nil]
    exact implements_expr hst
  | assign a => exact implements_assign hst
  | output e =>
    show Implements _ _ (also [] bound) _
    rw [also_nil]
    exact implements_output hst
  | ifThen condition body rest =>
    obtain ⟨hcondition, hall, hbody, hrest⟩ := hst
    have hbodyCode := block_implements body hbody
    rw [also_eq fun x hx => hall x (List.mem_append_left _ hx)] at hbodyCode
    show Implements _ _ (also (bindsAll body ++ rest.binds) bound) _
    rw [also_eq hall]
    intro s hs hopen
    have hjoin : ∀ join, none = some join → 0 < join ∧ join < s.function.blocks.size := by simp
    obtain ⟨s', truth, s₁, s₂, s₃, k, harm, hrun, hs', hkeeps, hsim⟩ :=
      arm_code hcondition hbodyCode
      (block_keeps .top body) (elsePart_continues rest hrest) (elsePart_keeps .top rest)
      (elsePart_alone rest) hs hopen hjoin
    refine ⟨s', hrun, hs', hkeeps, ?_⟩
    intro m F n hF hext
    have hplace : F.place s'.function = F.entry k.join := by
      funext φ
      obtain ⟨label, hlabel⟩ := harm.join_empty
      rw [harm.result]
      exact FunctionDraft.place_switchTo hlabel φ
    rw [hplace]
    exact hsim m F n hF hext
  | whileLoop condition body =>
    obtain ⟨hcondition, hbody⟩ := hst
    have hloop : Implements (loop .top "while" (block .top body) (pure ()) condition) _ _ _ :=
      implements_loop (block_implements body hbody) (block_keeps .top body) implements_pure
        keeps_pure (hcondition.mono fun _ => Or.inr)
    simp only [Progress.andThen_done] at hloop
    exact hloop
  | forLoop init limit body =>
    obtain ⟨hinit, hlimit, hbody⟩ := hst
    obtain ⟨x, shape, htarget, -⟩ := hinit.2.2
    have hbinds := Assignment.binds_of_var htarget
    show Implements _ _ (also ([init.target.name] ++ bindsAll body) bound) _
    rw [← hbinds, also_append]
    exact implements_for hinit hlimit (block_implements body hbody) (block_keeps .top body)
  | _ => exact absurd hst (by simp [Stmt.Integral])

theorem block_implements (body : List Stmt) {bound : String → Prop}
    (hbody : allIntegral bound body) :
    Implements (block .top body) bound (also (bindsAll body) bound) fun n => execAll n body := by
  cases body with
  | nil =>
    show Implements _ _ (also [] bound) _
    rw [also_nil]
    exact implements_pure
  | cons st rest =>
    show Implements _ _ (also (st.binds ++ bindsAll rest) bound) _
    rw [also_append]
    exact (statement_implements st hbody.1).andThen (statement_keeps .top st)
      (block_implements rest hbody.2) (block_keeps .top rest)

theorem elsePart_continues (part : ElsePart) {bound : String → Prop} (hpart : part.Integral bound) :
    ∀ rest, elsePart? .top part = some rest → Continues rest bound fun n => part.exec n := by
  intro rest hrest join s hs hopen hpos hlt
  cases part with
  | none => simp [elsePart?] at hrest
  | body body =>
    rw [elsePart?, Option.some.injEq] at hrest
    subst hrest
    obtain ⟨hall, hbody⟩ := hpart
    have hbodyCode := block_implements body hbody
    rw [also_eq hall] at hbodyCode
    obtain ⟨s₁, hrun, hs₁, hkeeps, hsim⟩ := hbodyCode s hs hopen
    obtain ⟨hgrows, hopen₁⟩ := block_keeps .top body s s₁ hopen hrun
    refine ⟨s₁.moved (s₁.function.fallTo join) s₁.storage,
      runs_bind.2 ⟨(), s₁, hrun, runs_fallTo.2 rfl⟩,
      hs₁.moved (FunctionDraft.fallTo_prologue _ _) fun _ => rfl,
      ⟨hkeeps.storage, hkeeps.module⟩, ?_⟩
    intro m F n hF hext
    rw [State.moved_function, FunctionDraft.fallTo_of_open hopen₁] at hext
    have hext₁ := (FunctionDraft.extends_terminate hopen₁ _).trans hext
    refine (hsim m F n hF hext₁).reaching ?_ fun _ _ h => h
    intro φ
    exact Reaches.of_step (FunctionDraft.step_branch m hF.named hopen₁ hpos
      (Nat.lt_of_lt_of_le hlt hgrows.grows.size_le) hext φ)
  | elseIf condition body part =>
    rw [elsePart?, Option.some.injEq] at hrest
    subst hrest
    obtain ⟨hcondition, hall, hbody, hpart⟩ := hpart
    have hbodyCode := block_implements body hbody
    rw [also_eq fun x hx => hall x (List.mem_append_left _ hx)] at hbodyCode
    have hgiven : ∀ block, some join = some block → 0 < block ∧ block < s.function.blocks.size := by
      rintro block heq
      rw [← Option.some.inj heq]
      exact ⟨hpos, hlt⟩
    obtain ⟨s', truth, s₁, s₂, s₃, k, harm, hrun, hs', hkeeps, hsim⟩ :=
      arm_code hcondition hbodyCode
      (block_keeps .top body) (elsePart_continues part hpart) (elsePart_keeps .top part)
      (elsePart_alone part) hs hopen hgiven
    have hjoin : k.join = join := by rw [harm.fork]; rfl
    rw [hjoin] at hsim
    exact ⟨s', hrun, hs', hkeeps, hsim⟩

end

/-! ### Programs -/

theorem integral_start (name sourceName target : String) :
    (State.start name sourceName target).Integral (· ∈ []) := by
  refine ⟨by simp, ?_, ?_, State.start_routines name sourceName target⟩
  · intro x slot hslot
    have hempty : (∅ : Storage)[(⟨x, .top⟩ : Symbol)]? = some slot := hslot
    simp at hempty
  · intro i hi
    have hempty : i ∈ ([] : List Instr) := hi
    simp at hempty

/-- **The code of an integral program does as the program does.** -/
theorem program_mirrors {p : Program} (hp : allIntegral (· ∈ []) p)
    (name sourceName target : String) :
    ∃ m main, (generate name sourceName target p).1 = .ok m ∧ m.function? "main" = some main ∧
      Mirrors m main (Program.exec p) := by
  have hopen := open_start "main" [] .i32
  obtain ⟨s₁, hrun, hs₁, hkeeps, hsim⟩ :=
    block_implements p hp _ (integral_start name sourceName target) hopen
  obtain ⟨hkept, hopen₁⟩ := block_keeps .top p _ _ hopen hrun
  obtain ⟨F, hleave⟩ : ∃ F, F = s₁.function.leave (some (.i32 0)) := ⟨_, rfl⟩
  obtain ⟨m, hm⟩ : ∃ m, m = (s₁.module.addFunction F.build).build := ⟨_, rfl⟩
  have hprogram : Runs (program p) (.start name sourceName target) m { s₁ with function := F } := by
    refine runs_bind.2 ⟨(), s₁, hrun, runs_bind.2 ⟨(), _, runs_leave.2 rfl, ?_⟩⟩
    refine runs_bind.2 ⟨_, _, runs_get.2 ⟨rfl, rfl⟩, runs_pure.2 ⟨?_, ?_⟩⟩
    · rw [hm, hleave]
    · rw [hleave]
  have hext : s₁.function.Extends F := by
    rw [hleave]
    exact FunctionDraft.extends_terminate hopen₁ _
  have hF : Completed m F := by
    refine ⟨?_, ?_, ?_⟩
    · rw [hleave]
      exact (FunctionDraft.Named.start "main" [] .i32).steps (hkept.steps.terminate _)
    · rw [hleave]
      exact hs₁.reserved
    · rw [hm]
      show s₁.module.globals.toList = _
      rw [hkeeps.module, State.start_globals]
  have hmain : m.function? "main" = some F.build := by
    have hfunctions : m.functions = [F.build] := by
      rw [hm]
      show (s₁.module.functions.push F.build).toList = _
      rw [hkeeps.module, State.start_functions]
      rfl
    have hname : F.build.name = "main" := by
      rw [hleave]
      exact hkept.steps.signature_eq.1
    rw [Module.function?, hfunctions, List.find?_cons_of_pos (by rw [hname]; rfl)]
  refine ⟨m, F.build, congrArg Prod.fst hprogram, hmain, ?_⟩
  -- The machine comes through the prologue to where the program begins, with nothing set.
  have hblocks : 0 < F.blocks.size :=
    Nat.lt_of_le_of_lt (Nat.zero_le _)
      (Nat.lt_of_lt_of_le (FunctionDraft.current_lt hopen₁) hext.size_le)
  obtain ⟨φ, hreaches, hout, hplaced⟩ := reaches_entry m hF.named hblocks fun i hi => by
    obtain ⟨x, slot, -, heq⟩ := hF.slots i hi
    exact ⟨slot, .i32, heq⟩
  have hplace : F.place (State.start name sourceName target).function φ = F.entry 0 φ :=
    FunctionDraft.place_switchTo (FunctionDraft.getElem?_createBlock _ "entry") φ
  have hempty : Represents F (State.start name sourceName target).storage φ .empty := by
    refine ⟨hplaced, ?_⟩
    intro x slot hslot
    have hnone : (∅ : Storage)[(⟨x, .top⟩ : Symbol)]? = some (intSlot slot) := hslot
    simp at hnone
  intro n
  have hfollows := (hsim m F n hF hext .empty φ hempty).reached (by rw [hplace]; exact hreaches)
  rw [hout] at hfollows
  have hrun : Program.exec p n = execAll n p .empty [] := rfl
  rw [hrun]
  cases hexec : execAll n p .empty [] with
  | done σ out =>
    simp only [hexec] at hfollows
    obtain ⟨φ', ⟨k, hk⟩, -, rfl⟩ := hfollows
    refine ⟨k + 1, ?_⟩
    have hlast : F.place s₁.function φ' = ⟨[], .ret (some (.i32 0)), φ'⟩ := by
      refine FunctionDraft.place_terminate hopen₁ rfl ?_ φ'
      rw [hleave]
      exact FunctionDraft.Extends.refl _
    rw [run_add, hk, hlast]
    rfl
  | stuck out => simp only [hexec] at hfollows; exact hfollows
  | unfinished out => simp only [hexec] at hfollows; exact hfollows

end Lower

/-- Code is generated for a program of integers that is read, and it does as the program does. -/
theorem mirrors_of_parse {tokens : List Token} {p : Program} (hparse : parse tokens = .ok p)
    (hplain : allPlain p) (harms : armsBoundAll [] p) (name sourceName target : String) :
    ∃ m main, (generate name sourceName target p).1 = .ok m ∧ m.function? "main" = some main ∧
      Ir.Mirrors m main (Program.exec p) := by
  have henv : ({} : Environment).Integral (· ∈ []) := by
    refine ⟨?_, by simp⟩
    intro x
    simp [Environment.contains]
  obtain ⟨hint, -⟩ := integral_of_all henv p hplain harms (allAgree_of_parse hparse)
  exact Lower.program_mirrors hint name sourceName target

/-- **Generated code of an integer program does as the program does.**  Take any program that is
read from tokens, is one of integers, and binds in the arms of conditionals only names that are
bound before.  Then code is generated for it; `main` prints what the program prints, it returns, and
then zero, exactly if the program ends, having printed the same, and it gets stuck exactly if the
program does. -/
theorem generate_mirrors_of_parse {tokens : List Token} {p : Program}
    (hparse : parse tokens = .ok p)
    (hplain : allPlain p) (harms : armsBoundAll [] p) (name sourceName target : String) :
    ∃ m main, (generate name sourceName target p).1 = .ok m ∧ m.function? "main" = some main ∧
      (∀ out, main.Prints m out ↔ Program.Prints p out) ∧
      (∀ d out, main.Returns m d out ↔ d = .word 0 ∧ Program.Terminates p out) ∧
      ∀ out, main.GetsStuck m out ↔ Program.GetsStuck p out := by
  obtain ⟨m, main, hgenerate, hmain, hmirrors⟩ :=
    mirrors_of_parse hparse hplain harms name sourceName target
  exact ⟨m, main, hgenerate, hmain, hmirrors.prints_iff, hmirrors.returns_iff,
    hmirrors.getsStuck_iff⟩

/-- How many steps it takes from six to one, less one, two and three. -/
def stepsFromSix : String :=
  "n = 6\nsteps = 0\nWHILE n <> 1 DO\nIF n % 2 == 0 THEN\nn = n / 2\nELSE\nn = 3 * n + 1\n" ++
    "ENDIF\nsteps = steps + 1\nENDWHILE\nFOR k = 1 TO 3\nOUTPUT steps - k\nNEXT k\n"

theorem stepsFromSix_returns : ∃ p, parse (scan stepsFromSix).tokens = .ok p ∧ allPlain p ∧
    armsBoundAll [] p ∧
    ∃ m main, (generate "steps" "steps.pc" "none" p).1 = .ok m ∧ m.function? "main" = some main ∧
      main.Returns m (.word 0) [.number 7, .lineBreak, .number 6, .lineBreak, .number 5,
        .lineBreak] := by
  have hok : (parse (scan stepsFromSix).tokens).toOption.map
    (fun p => (allPlain p, armsBoundAll [] p,
      match Program.exec p 9 with
      | .done _ out => some out
      | _ => none)) =
      some (true, true, some [.number 7, .lineBreak, .number 6, .lineBreak, .number 5,
        .lineBreak]) := by
    decide +kernel
  obtain ⟨p, hp, hok⟩ := Option.map_eq_some_iff.mp hok
  have hparse := eq_ok_of_toOption hp
  simp only [Prod.mk.injEq] at hok
  obtain ⟨hplain, harms, hexec⟩ := hok
  obtain ⟨m, main, hgenerate, hmain, -, hreturns, -⟩ :=
    generate_mirrors_of_parse hparse hplain harms "steps" "steps.pc" "none"
  refine ⟨p, hparse, hplain, harms, m, main, hgenerate, hmain, (hreturns _ _).2 ⟨rfl, 9, ?_⟩⟩
  split at hexec
  · rename_i σ out hdone
    exact ⟨σ, by rw [hdone, Option.some.inj hexec]⟩
  · simp at hexec

end Pseudocode
