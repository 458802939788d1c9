import Pseudocode.Proofs.Ir.Closed
import Pseudocode.Proofs.Lower.WellFormed

/-!
Generated functions have closed control-flow graphs.

A statement is lowered with some blocks pending: the one it begins in, and those that the
conditionals and loops around it have created and not entered yet.  It leaves the same blocks
pending, the one it ends in in place of the one it began in.  What follows an arm of a conditional
leaves none of its own pending: all of its paths go on in a block that it is given.

The function that the program starts with is left in one place only, at its end: a return is lowered
only in a function that belongs to a subroutine, and no subroutine is called `main`.
-/

namespace Pseudocode.Lower

open Ir

variable {name : String} {condition : Expr} {body : Lowering Unit}
  {rest? : Option (Nat → Lowering Unit)}

/-- Only pending blocks of the function wait for their terminators, `main` has not been left, and
the functions that have been finished are closed. -/
structure State.Closing (s : State) (pending : Set Nat) : Prop where
  function : s.function.Closing (s.function.name = "main") pending
  functions : ∀ f ∈ s.module.functions, f.Closed ∧ f.name ≠ "main"

/-- Code that goes on where it ends, and leaves the other pending blocks as they are. -/
def KeepsClosing (s s' : State) : Prop :=
  ∀ P, "main" ∉ s'.subroutines → s.Closing (insert s.function.current P) →
    s'.Closing (insert s'.function.current P)

section

variable {s s' : State} {P Q : Set Nat} {u : Unit}

theorem State.Closing.moved (h : s.Closing P) {f : FunctionDraft}
    (hf : f.Closing (s.function.name = "main") Q)
    (hname : f.name = s.function.name) (storage : Storage) : (s.moved f storage).Closing Q := by
  refine ⟨?_, h.functions⟩
  show f.Closing (f.name = "main") Q
  rw [hname]
  exact hf

theorem Straight.keepsClosing {kinds : SlotKind → Prop} {scope : Scope}
    (h : Straight kinds scope s s') (hopen : s.function.Open) : KeepsClosing s s' := by
  have hall : ∀ P, s.Closing P → s'.Closing P := by
    induction h with
    | appends h =>
      intro P hs
      obtain ⟨is, his⟩ := h.function
      refine ⟨?_, ?_⟩
      · rw [his]
        exact hs.function.extend hopen is
      · rw [h.functions]
        exact hs.functions
    | reserved s name ty => exact fun P hs => ⟨hs.function.setup _ _, hs.functions⟩
    | first h =>
      obtain ⟨-, rfl⟩ := runs_storeFirst.1 h
      exact fun P hs => ⟨hs.function.setup _ _, hs.functions⟩
    | made => exact fun P hs => ⟨hs.function, hs.functions⟩
    | resized => exact fun P hs => ⟨hs.function, hs.functions⟩
    | trans h₁ _ ih₁ ih₂ => exact fun P hs => ih₂ (h₁.keeps hopen).2 P (ih₁ hopen P hs)
  intro P _ hs
  rw [h.same.1.1]
  exact hall _ hs

variable {scope : Scope}

/-! ### Conditionals and loops -/

/-- What follows an arm of a conditional, given where all arms go on. -/
def LeavesClosing (join : Nat) (s s' : State) : Prop :=
  ∀ P, "main" ∉ s'.subroutines → s.function.IsTarget join →
    s.Closing (insert s.function.current P) → s'.Closing P

/-- What is pending where both arms have been lowered. -/
def pendingBehind (k : FunctionDraft.Fork) (join? : Option Nat) (P : Set Nat) : Set Nat :=
  if join?.isNone then insert k.join P else P

/-- Of the blocks that an arm creates, what is pending behind its body are the block of what follows
it and the one where both go on. -/
theorem created_subset (f : FunctionDraft) (truth : Value) (join? : Option Nat) (followed : Bool)
    (P : Set Nat) :
    {i | f.blocks.size ≤ i ∧
      i < f.blocks.size + (FunctionDraft.forkHints join? followed).length} ∪ P ⊆
      insert (f.fork truth join? followed).body
      ((if followed then {(f.fork truth join? followed).otherwise} else ∅) ∪
        pendingBehind (f.fork truth join? followed) join? P) := by
  rintro i (⟨hle, hlt⟩ | hi)
  · cases join? <;> cases followed <;>
      simp [FunctionDraft.forkHints, FunctionDraft.fork, pendingBehind] at hlt ⊢ <;> omega
  · cases join? <;> simp [pendingBehind, hi]

/-- An arm of a conditional, whose last block, if it is a new one, is pending. -/
theorem ArmRun.closing {join? : Option Nat} {truth : Value} {s₁ s₂ s₃ : State}
    {k : FunctionDraft.Fork}
    (h : ArmRun scope condition join? body rest? s s' truth s₁ s₂ s₃ k) (hopen : s.function.Open)
    (hbody : KeepsClosing (s₁.moved (k.function.switchTo k.body) s₁.storage) s₂)
    (hrest : rest?.isSome → LeavesClosing k.join (s₁.otherwise s₂ k) s₃)
    (hjoin : ∀ join, join? = some join → s.function.IsTarget join) (hmain : "main" ∉ s'.subroutines)
    (hs : s.Closing (insert s.function.current P)) : s'.Closing (pendingBehind k join? P) := by
  have hext₁ := (h.condition.appends.keeps scope hopen).1.grows.toExtends
  have hjoin₁ : ∀ join, join? = some join → s₁.function.IsTarget join :=
    fun join hj => (hjoin join hj).mono hext₁
  have hmain₃ : "main" ∉ s₃.subroutines := by
    rw [h.result] at hmain
    exact hmain
  have hmain₂ : "main" ∉ s₂.subroutines := fun hmem => hmain₃ (h.after_body.2 _ hmem)
  have hmain₁ : "main" ∉ s₁.subroutines := fun hmem => hmain₂ (h.thenKeeps.mem_subroutines _ hmem)
  have hstraight := h.condition.appends.straight scope
  have hs₁ := hstraight.keepsClosing hopen P hmain₁ hs
  obtain ⟨others, hothers⟩ : ∃ others : Set Nat, others =
      (if rest?.isSome then {k.otherwise} else ∅) ∪ pendingBehind k join? P := ⟨_, rfl⟩
  have hstart :
    (s₁.moved (k.function.switchTo k.body) s₁.storage).Closing (insert k.body others) := by
    rw [hothers, h.fork]
    have hfork :=
      (hs₁.function.fork h.opened truth rest?.isSome hjoin₁).mono (created_subset _ truth _ _ _)
    exact hs₁.moved (hfork.switchTo (s₁.function.fork truth join? rest?.isSome).body)
      (FunctionDraft.steps_fork _ truth join? rest?.isSome).signature_eq.1 _
  have hs₂ := hbody others hmain₂ hstart
  have htarget : s₂.function.IsTarget k.join := by
    have hgrows := h.ran.grows
    rw [h.fork]
    refine (FunctionDraft.isTarget_fork h.opened truth rest?.isSome hjoin₁ _ ?_).mono
      ((FunctionDraft.extends_terminate (h.opened.created _) _).trans
        ((FunctionDraft.extends_switchTo _ _).trans hgrows.toExtends))
    exact List.mem_cons_of_mem _ (List.mem_cons_of_mem _ List.mem_cons_self)
  -- The body goes on in the block where both arms do.
  have hfall : (s₂.function.fallTo k.join).Closing (s₂.function.name = "main") others := by
    rw [FunctionDraft.fallTo_of_open h.ran.finish]
    exact hs₂.function.branch h.ran.finish htarget
  have hsame := (FunctionDraft.steps_fallTo s₂.function k.join).signature_eq.1
  have hs₃ : s₃.Closing (pendingBehind k join? P) := by
    cases hrest? : rest? with
    | none =>
      rw [hrest?, Option.isSome_none, if_neg Bool.false_ne_true, Set.empty_union] at hothers
      rw [h.alone hrest?, ← hothers]
      exact hs₂.moved hfall hsame _
    | some rest =>
      rw [hrest?, Option.isSome_some, if_pos rfl, Set.singleton_union] at hothers
      have htargetRest : (s₁.otherwise s₂ k).function.IsTarget k.join := by
        refine htarget.mono
          (FunctionDraft.Extends.trans ?_ (FunctionDraft.extends_switchTo _ k.otherwise))
        rw [FunctionDraft.fallTo_of_open h.ran.finish]
        exact FunctionDraft.extends_terminate h.ran.finish _
      refine hrest (by rw [hrest?]; rfl) _ hmain₃ htargetRest ?_
      rw [hothers] at hfall
      exact hs₂.moved (hfall.switchTo k.otherwise) hsame _
  rw [h.result]
  cases join? with
  | none => exact hs₃.moved (hs₃.function.switchTo k.join) rfl _
  | some join => exact hs₃.moved hs₃.function rfl _

theorem LoopRun.closing {kind : String} {step : Lowering Unit} {truth : Value} {s₁ s₂ s₃ : State}
    (hkind : ∀ hint ∈ [kind ++ ".body", kind ++ ".exit"], hint.toList.head? ≠ some 'a')
    (hloop : LoopRun scope kind body step condition s s' truth s₁ s₂ s₃)
    (hbody : KeepsClosing (s.moved (s.function.enter kind) (s.storage.forgetLengths scope)) s₁)
    (hstep : KeepsClosing s₁ s₂) : KeepsClosing s s' := by
  intro P hmain hs
  obtain ⟨henter, hbodyTarget, hexitTarget⟩ := hs.function.enter hloop.opened hkind
  have hstraight := hloop.condition.appends.straight scope
  obtain ⟨k₃, o₃⟩ := hstraight.keeps hloop.stepOpen
  have hmain₃ : "main" ∉ s₃.subroutines := by
    rw [hloop.result] at hmain
    exact hmain
  have hmain₂ : "main" ∉ s₂.subroutines := fun hmem => hmain₃ (k₃.mem_subroutines _ hmem)
  have hmain₁ : "main" ∉ s₁.subroutines :=
    fun hmem => hmain₂ (hloop.stepKeeps.mem_subroutines _ hmem)
  have hs₁ := hbody _ hmain₁
    (hs.moved henter (FunctionDraft.steps_enter s.function kind).signature_eq.1 _)
  have hs₃ := hstraight.keepsClosing hloop.stepOpen _ hmain₃ (hstep _ hmain₂ hs₁)
  have hext := hloop.inside.1.grows.toExtends
  rw [hloop.result]
  exact hs₃.moved
    ((hs₃.function.condBranch o₃ (hbodyTarget.mono hext) (hexitTarget.mono hext)).switchTo _) rfl _

/-! ### Subroutines -/

theorem keepsClosing_leaveWith {e : Expr} (hopen : s.function.Open)
    (hrun : Runs (leaveWith scope e) s u s') : KeepsClosing s s' := by
  intro P hmain hs
  obtain ⟨sub, value, s₁, hsub, hvalue, rfl⟩ := runs_leaveWith hrun
  have hstraight := hvalue.appends.straight scope
  obtain ⟨hkeeps, o₁⟩ := hstraight.keeps hopen
  have hs₁ := hstraight.keepsClosing hopen P hmain hs
  -- The function belongs to a subroutine, so it is not the one that the program starts with.
  have hname : s₁.function.name ≠ "main" := by
    intro heq
    rw [hkeeps.steps.signature_eq.1] at heq
    rw [heq] at hsub
    exact hmain (Std.TreeMap.mem_iff_isSome_getElem?.mpr
      (Option.isSome_of_eq_some (hkeeps.subroutines "main" sub hsub)))
  have hleft : (s₁.function.leave (some value)).Closing (s₁.function.name = "main") P :=
    hs₁.function.leave o₁ hname
  have hnew := (hleft.createBlock "after.return").switchTo s₁.function.blocks.size
  rw [FunctionDraft.leave, FunctionDraft.terminate_size] at hnew
  exact hs₁.moved hnew rfl _

theorem keepsClosing_subroutine {params : List Param} {ty : Ty} {body : List Stmt}
    (hbody : ∀ s s', s.function.Open → Runs (block (.subroutine name) body) s () s' →
      KeepsClosing s s')
    (hrun : Runs (subroutine name params ty (block (.subroutine name) body)) s u s') :
    KeepsClosing s s' := by
  intro P hmain hs
  obtain ⟨hreserved, -, irParams, ret, s₁, s₂, f, -, -, hstore, hbodyRun, hf, rfl⟩ :=
    runs_subroutine hrun
  have hopen₀ := open_start name irParams ret
  have hstraight := straight_storeParams hstore
  obtain ⟨hkeeps₁, o₁⟩ := hstraight.keeps hopen₀
  obtain ⟨hkeeps₂, o₂⟩ := block_keeps (.subroutine name) body _ _ o₁ hbodyRun
  have hname : name ≠ "main" := by
    rintro rfl
    exact hreserved (by decide)
  obtain ⟨s₀, hs₀⟩ : ∃ s₀ : State, s₀ = s.within name irParams ret
    ⟨⟨ret, irParams.map Ir.Param.ty, false⟩, params.map Param.ty, ty⟩ := ⟨_, rfl⟩
  rw [← hs₀] at hstraight hkeeps₁
  have hstart : s₀.Closing (insert s₀.function.current ∅) := by
    rw [hs₀, insert_empty_eq]
    exact ⟨FunctionDraft.closing_start name irParams ret, hs.functions⟩
  have hmain₁ : "main" ∉ s₁.subroutines := fun hmem => hmain (hkeeps₂.mem_subroutines _ hmem)
  have hs₂ := hbody s₁ s₂ o₁ hbodyRun ∅ hmain
    (hstraight.keepsClosing (by rw [hs₀]; exact hopen₀) ∅ hmain₁ hstart)
  have hsteps : (FunctionDraft.start name irParams ret).Steps s₂.function := by
    have := hkeeps₁.steps.trans hkeeps₂.steps
    rwa [hs₀] at this
  refine ⟨hs.function, ?_⟩
  intro g hg
  have hpush : g ∈ s₂.module.functions.push f.build := hg
  rcases Array.mem_push.mp hpush with hold | rfl
  · exact hs₂.functions g hold
  · rcases hf with ⟨hterm, -⟩ | ⟨-, value, -, -, rfl⟩
    · rw [o₂.isTerminated] at hterm
      simp at hterm
    · have hnamed :=
        (FunctionDraft.Named.start name irParams ret).steps (hsteps.terminate (.ret (some value)))
      have hsame : s₂.function.name = name := hsteps.signature_eq.1
      refine ⟨FunctionDraft.Closing.closed (hs₂.function.leave o₂ ?_) hnamed, ?_⟩
      · rw [hsame]
        exact hname
      · show s₂.function.name ≠ "main"
        rw [hsame]
        exact hname

end

/-! ### Statements -/

/-- **A statement closes all blocks that it creates**, but for the one in which it ends. -/
theorem closing_walk :
    Walk (fun _ _ => KeepsClosing) (fun _ _ => KeepsClosing) fun _ _ => LeavesClosing where
  logged _ h P hmain hs := h P hmain ⟨hs.function, hs.functions⟩
  expr hopen h := (h.appends.straight .top).keepsClosing hopen
  assign hopen h := (straight_assign h).keepsClosing hopen
  array hopen h := (straight_declareArray h).keepsClosing hopen
  output hopen h := (h.appends.straight .top).keepsClosing hopen
  input hopen h := (h.appends.straight .top).keepsClosing hopen
  ifThen hopen harm hbody hrest P hmain hs := by
    have hs' := harm.closing hopen hbody hrest (by simp) hmain hs
    rw [harm.result] at hs' ⊢
    exact hs'
  whileLoop hloop hbody := hloop.closing (by decide) hbody fun _ _ hs => hs
  forLoop hopen hinit _ hloop hbody P hmain hs := by
    refine hloop.closing (by decide) hbody
      ((straight_assign hloop.step).keepsClosing hloop.bodyOpen) P hmain ?_
    exact (straight_assign hinit).keepsClosing hopen P
      (fun hmem => hmain (hloop.keeps.mem_subroutines _ hmem)) hs
  subroutine _ h hbody := keepsClosing_subroutine hbody h
  ret hopen h := keepsClosing_leaveWith hopen h
  nil := fun _ _ hs => hs
  cons _ _ _ _ _ k₂ h₁ h₂ P hmain hs :=
    h₂ P hmain (h₁ P (fun hmem => hmain (k₂.mem_subroutines _ hmem)) hs)
  body := by
    intro _ _ join _ s₁ _ _ k₁ o₁ hbody P hmain hjoin hs
    have hs₁ := hbody P hmain hs
    refine hs₁.moved ?_ (FunctionDraft.steps_fallTo s₁.function join).signature_eq.1 _
    rw [FunctionDraft.fallTo_of_open o₁]
    exact hs₁.function.branch o₁ (hjoin.mono k₁.grows.toExtends)
  elseIf hopen _ harm hbody hrest P hmain hjoin hs := by
    refine harm.closing hopen hbody hrest ?_ hmain hs
    rintro _ ⟨⟩
    exact hjoin

theorem closed_program {sourceName target : String} {p : Program} {m : Module} {s : State}
    (h : Runs (program p) (.start name sourceName target) m s) :
    ∃ functions main, m.functions = functions ++ [main] ∧ main.name = "main" ∧ main.Closed ∧
      main.returns = [some (.i32 0)] ∧ ∀ f ∈ functions, f.Closed ∧ f.name ≠ "main" := by
  obtain ⟨s₁, hblock, rfl⟩ := runs_program h
  have hopen := opened_start name sourceName target
  have hsound := block_sound .top p _ _ (sound_start name sourceName target) hopen hblock
  obtain ⟨hkeeps, o₁⟩ := block_keeps .top p _ _ hopen hblock
  have hstart : (State.start name sourceName target).Closing
      (insert (State.start name sourceName target).function.current ∅) := by
    refine ⟨?_, ?_⟩
    · rw [insert_empty_eq]
      exact FunctionDraft.closing_start "main" [] .i32
    · intro f hf
      rw [State.start_functions] at hf
      simp at hf
  have hs₁ := (closing_walk.block .top p _ _ hopen hblock).2 ∅ hsound.main hstart
  have hname : s₁.function.name = "main" := hkeeps.steps.signature_eq.1
  have hnamed :=
    (FunctionDraft.Named.start "main" [] .i32).steps (hkeeps.steps.terminate (.ret (some (.i32 0))))
  refine ⟨s₁.module.functions.toList, (s₁.function.leave (some (.i32 0))).build, ?_, hname, ?_,
    hs₁.function.returns_leave o₁ hname _, ?_⟩
  · exact Array.toList_push
  · exact (hs₁.function.weaken.leave o₁ id).closed hnamed
  · intro f hf
    exact hs₁.functions f (Array.mem_toList_iff.mp hf)

end Pseudocode.Lower

namespace Pseudocode

open Ir

/-- **The control-flow graph of every generated function is closed**, whatever the tree it is
generated for: all of its blocks end, its branches lead to its own blocks, and neither the first
block nor what follows a return is branched to.  There is one function `main`, and it returns in one
place, with zero. -/
theorem closed_of_generate {name sourceName target : String} {p : Program} {m : Module}
    (h : (generate name sourceName target p).1 = .ok m) :
    (∀ f ∈ m.functions, f.Closed) ∧
      ∃ main, m.functions.filter (·.name = "main") = [main] ∧ main.returns = [some (.i32 0)] := by
  obtain ⟨s, hrun⟩ := runs_of_generate h
  obtain ⟨functions, main, hfunctions, hname, hclosed, hreturns, hothers⟩ :=
    Lower.closed_program hrun
  refine ⟨?_, main, ?_, hreturns⟩
  · intro f hf
    rw [hfunctions, List.mem_append, List.mem_singleton] at hf
    rcases hf with hf | rfl
    · exact (hothers f hf).1
    · exact hclosed
  · have hnone : functions.filter (·.name = "main") = [] := by
      rw [List.filter_eq_nil_iff]
      intro f hf
      simpa using (hothers f hf).2
    rw [hfunctions, List.filter_append, hnone]
    simp [hname]

/-- A subroutine that returns from both arms of a conditional inside a loop, and goes on behind
it. -/
def returning : Program :=
  let int : Shape := ⟨.int, 0⟩
  let n : Expr := .var "n" int
  let one : Expr := .constant (.int 1) int
  [.subroutine "half" [⟨"n", .int⟩]
    [.whileLoop (.binary .gt n one int)
      [.ifThen (.binary .eq n one int) [.ret one]
        (.elseIf (.binary .lt n one int) [.ret n] (.body [.ret (.binary .div n one int)])),
        .output n]] .int,
   .output (.call "half" [one] .int)]

theorem returning_closed : ∃ m, (generate "returning" "returning.pc" "none" returning).1 = .ok m ∧
    m.functions.map (fun f => f.blocks.length) = [11, 1] ∧ (∀ f ∈ m.functions, f.Closed) ∧
      ∃ main, m.functions.filter (·.name = "main") = [main] ∧ main.returns = [some (.i32 0)] := by
  have hok : ((generate "returning" "returning.pc" "none" returning).1.toOption.map fun m =>
      m.functions.map fun f => f.blocks.length) = some [11, 1] := by decide +kernel
  obtain ⟨m, hm, hblocks⟩ := Option.map_eq_some_iff.mp hok
  have h := eq_ok_of_toOption hm
  exact ⟨m, h, hblocks, closed_of_generate h⟩

end Pseudocode
