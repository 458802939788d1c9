import Pseudocode.Proofs.Ir.Inward
import Pseudocode.Proofs.Lower.Closed

/-!
Chains of arms.

A conditional is lowered arm by arm.  Its first arm creates the block where all arms go on, and
hands it to what follows; an arm further down the chain creates none.  So there is one such block
for the whole chain, and this module says what leads to it: the end of every body, and the last
condition if no body follows it.  The bodies are arbitrary, and that nothing inside them leads to
the block is a fact about all statements: branches of new code stay within it (`inward_walk`).

`Chain.Laid` is what an arm and what follows it leave in the function, and it is put together from
the last arm to the first (`ArmRun.laid`).
-/

namespace Pseudocode

namespace ElsePart

/-- The conditions of the arms that follow. -/
def conditions : ElsePart → List Expr
  | none => []
  | body _ => []
  | elseIf condition _ rest => condition :: rest.conditions

/-- The bodies of what follows, one for every `ELSE IF` and one for an `ELSE`. -/
def bodies : ElsePart → List (List Stmt)
  | none => []
  | body code => [code]
  | elseIf _ code rest => code :: rest.bodies

end ElsePart

namespace Lower

open Ir

/-! ### Branches stay within new code -/

section

variable {scope : Scope} {s s' : State}

theorem Straight.inward {kinds : SlotKind → Prop} (h : Straight kinds scope s s')
    (given? : Option Nat)
    (hopen : s.function.Open) : FunctionDraft.Inward given? s.function s'.function :=
  .of_straight given? (h.keeps hopen).1.grows (h.keeps hopen).2 h.same.1.1 h.same.1.2

namespace ArmRun

variable {condition : Expr} {join? : Option Nat} {body : Lowering Unit}
  {rest? : Option (Nat → Lowering Unit)} {truth : Value} {s₁ s₂ s₃ : State} {k : FunctionDraft.Fork}

variable (h : ArmRun scope condition join? body rest? s s' truth s₁ s₂ s₃ k)

include h

theorem extends_fork :
    s₁.function.Extends k.function := by
  rw [h.fork]
  exact (FunctionDraft.grows_fork h.opened truth join? rest?.isSome).toExtends

theorem extends_left :
    s₂.function.Extends (s₂.function.fallTo k.join) := by
  rw [FunctionDraft.fallTo_of_open h.ran.finish]
  exact FunctionDraft.extends_terminate h.ran.finish _

theorem size_condition :
    s₁.function.blocks.size = s.function.blocks.size :=
  (h.condition.appends.straight scope).same.1.2

theorem places (hjoin : ∀ join, join? = some join → join < s₁.function.blocks.size) :
    (k.body < k.function.blocks.size ∧ k.otherwise < k.function.blocks.size ∧
      k.join < k.function.blocks.size) ∧
      k.join ≠ k.body ∧ (k.otherwise = k.join ↔ rest?.isSome = false) ∧
      (s₁.function.blocks.size ≤ k.join ∨ join? = some k.join) := by
  rw [h.fork]
  exact FunctionDraft.fork_places s₁.function truth rest?.isSome hjoin

theorem inward_left (hopen : s.function.Open)
    (hbody : FunctionDraft.Inward none (k.function.switchTo k.body) s₂.function)
    (hjoin : ∀ join, join? = some join → join < s.function.blocks.size) :
    FunctionDraft.Inward join? s.function (s₂.function.fallTo k.join) ∧
      s.function.Extends (s₂.function.fallTo k.join) := by
  rw [← h.size_condition] at hjoin
  obtain ⟨⟨-, -, hlt⟩, -, -, hnew⟩ := h.places hjoin
  have hext := (h.condition.appends.keeps scope hopen).1.grows.toExtends
  have hfork : FunctionDraft.Inward join? s₁.function k.function := by
    rw [h.fork]
    exact .fork truth _ hjoin
  have hthen := hbody.of_switchTo
  have hleft :=
    FunctionDraft.Inward.fallTo h.ran.finish (Nat.lt_of_lt_of_le hlt h.extends_then.size_le)
  have hall := (hfork.trans hthen h.extends_fork h.extends_then (by simp)).trans hleft
    (h.extends_fork.trans h.extends_then) h.extends_left (by rintro _ ⟨⟩; exact hnew)
  have hafter := h.extends_fork.trans (h.extends_then.trans h.extends_left)
  exact ⟨((h.condition.appends.straight scope).inward join? hopen).trans hall hext hafter
    fun _ => Or.inr, hext.trans hafter⟩

theorem inward (hopen : s.function.Open)
    (hbody : FunctionDraft.Inward none (k.function.switchTo k.body) s₂.function)
    (hrest : rest?.isSome → k.join < (s₁.otherwise s₂ k).function.blocks.size →
      FunctionDraft.Inward (some k.join) (s₁.otherwise s₂ k).function s₃.function)
    (hjoin : ∀ join, join? = some join → join < s.function.blocks.size) :
    FunctionDraft.Inward join? s.function s'.function := by
  obtain ⟨hleft, hext⟩ := h.inward_left hopen hbody hjoin
  rw [← h.size_condition] at hjoin
  obtain ⟨⟨-, -, hlt⟩, -, -, hnew⟩ := h.places hjoin
  have hall : FunctionDraft.Inward join? s.function s₃.function := by
    cases hrest? : rest? with
    | none =>
      rw [h.alone hrest?]
      exact hleft
    | some rest =>
      have hltRest := Nat.lt_of_lt_of_le hlt (h.extends_then.trans h.extends_left).size_le
      have hfollowed := hrest (by rw [hrest?]; rfl) hltRest
      refine hleft.trans hfollowed.of_switchTo hext h.extends_fallTo ?_
      rintro _ ⟨⟩
      rwa [h.size_condition] at hnew
  rw [h.result]
  cases join? with
  | none => exact hall.switchTo k.join
  | some join => exact hall

end ArmRun

theorem inward_loop {kind : String} {body step : Lowering Unit} {condition : Expr} {truth : Value}
    {s₁ s₂ s₃ : State} (hloop : LoopRun scope kind body step condition s s' truth s₁ s₂ s₃)
    (hbody : FunctionDraft.Inward none (s.function.enter kind) s₁.function)
    (hstep : FunctionDraft.Inward none s₁.function s₂.function) :
    FunctionDraft.Inward none s.function s'.function := by
  obtain ⟨hinside, o₃⟩ := hloop.inside
  have hentered := (FunctionDraft.grows_enter hloop.opened kind).toExtends
  have hstraight := hloop.condition.appends.straight scope
  have hconditionExt := (hstraight.keeps hloop.stepOpen).1.grows.toExtends
  have hturn := hstep.trans (hstraight.inward none hloop.stepOpen) hloop.stepKeeps.grows.toExtends
    hconditionExt (by simp)
  have hbodyTurn := hbody.trans hturn hloop.bodyKeeps.grows.toExtends
    (hloop.stepKeeps.grows.toExtends.trans hconditionExt) (by simp)
  have hall := (FunctionDraft.Inward.enter hloop.opened kind).trans hbodyTurn hentered
    hinside.grows.toExtends (by simp)
  have hsize : s.function.blocks.size + 2 ≤ s₃.function.blocks.size := by
    have hle := hinside.grows.toExtends.size_le
    have henter : (s.function.enter kind).blocks.size = s.function.blocks.size + 2 :=
      (FunctionDraft.terminate_size _ _).trans (FunctionDraft.created_size _ _)
    exact henter ▸ hle
  rw [hloop.result]
  refine (hall.terminate o₃ ?_).switchTo (s.function.blocks.size + 1)
  -- The last branch leads back to the body or on to the exit.
  intro label hlabel
  rw [Terminator.targets, List.mem_pair] at hlabel
  rcases hlabel with rfl | rfl
  · exact ⟨s.function.blocks.size, by omega, Or.inl (Nat.le_refl _), rfl⟩
  · exact ⟨s.function.blocks.size + 1, by omega, Or.inl (Nat.le_succ _), rfl⟩

theorem inward_leaveWith {e : Expr} (hopen : s.function.Open)
    (hrun : Runs (leaveWith scope e) s () s') :
    FunctionDraft.Inward none s.function s'.function := by
  obtain ⟨sub, value, s₁, -, hvalue, rfl⟩ := runs_leaveWith hrun
  have hstraight := hvalue.appends.straight scope
  have hleft : FunctionDraft.Inward none s.function (s₁.function.leave (some value)) :=
    (hstraight.inward none hopen).terminate (hstraight.keeps hopen).2 (by simp [Terminator.targets])
  exact (hleft.created ["after.return"]).switchTo _

end

/-! ### Statements -/

/-- **Statements branch to their own blocks only**, and what follows an arm to where all arms go
on. -/
theorem inward_walk : Walk (fun _ _ s s' => FunctionDraft.Inward none s.function s'.function)
    (fun _ _ s s' => FunctionDraft.Inward none s.function s'.function)
    fun _ _ join s s' => join < s.function.blocks.size →
      FunctionDraft.Inward (some join) s.function s'.function where
  logged _ h := h
  expr hopen h := (h.appends.straight .top).inward none hopen
  assign hopen h := (straight_assign h).inward none hopen
  array hopen h := (straight_declareArray h).inward none hopen
  output hopen h := (h.appends.straight .top).inward none hopen
  input hopen h := (h.appends.straight .top).inward none hopen
  ifThen hopen harm hbody hrest := harm.inward hopen hbody hrest (by simp)
  whileLoop hloop hbody := inward_loop hloop hbody (.refl _ _)
  forLoop hopen hinit _ hloop hbody := by
    have hturns := inward_loop hloop hbody ((straight_assign hloop.step).inward none hloop.bodyOpen)
    exact ((straight_assign hinit).inward none hopen).trans hturns
      (keeps_assign hopen hinit).1.grows.toExtends hloop.keeps.grows.toExtends (by simp)
  subroutine {scope name _ body _ s s'} _ h _ := by
    rw [(keeps_subroutine scope (block_keeps (.subroutine name) body) h).2]
    exact .refl _ _
  ret hopen h := inward_leaveWith hopen h
  nil := .refl _ _
  cons _ _ k₁ _ _ k₂ h₁ h₂ := h₁.trans h₂ k₁.grows.toExtends k₂.grows.toExtends (by simp)
  body := by
    intro _ _ join s s₁ hopen _ k₁ o₁ hbody hjoin
    have hext := k₁.grows.toExtends
    refine hbody.given.trans (.fallTo o₁ (Nat.lt_of_lt_of_le hjoin hext.size_le)) hext ?_
      fun _ => Or.inr
    rw [State.moved_function, FunctionDraft.fallTo_of_open o₁]
    exact FunctionDraft.extends_terminate o₁ _
  elseIf hopen _ harm hbody hrest hjoin := by
    refine harm.inward hopen hbody hrest ?_
    rintro _ ⟨⟩
    exact hjoin

theorem block_inward (scope : Scope) (body : List Stmt) {s s' : State} (hopen : s.function.Open)
    (h : Runs (block scope body) s () s') : FunctionDraft.Inward none s.function s'.function :=
  (inward_walk.block scope body s s' hopen h).2

/-! ### The blocks of a chain -/

/-- The code of a chain of arms. -/
structure Chain where
  /-- The blocks in which the conditions are tested, and the one in which a last body without a
  condition begins. -/
  places : List Nat
  /-- The blocks in which the bodies of the arms begin. -/
  thens : List Nat
  /-- The conditions: the states before and after, and the value that is branched on. -/
  tests : List (State × Value × State)
  /-- The bodies: the states before and after. -/
  bodies : List (State × State)

/-- The numbers of the blocks that have been created from one stage to another. -/
def newBlocks (f g : FunctionDraft) : List Nat :=
  List.range' f.blocks.size (g.blocks.size - f.blocks.size)

theorem newBlocks_append {f g h : FunctionDraft} (hfg : f.Extends g) (hgh : g.Extends h) :
    newBlocks f h = newBlocks f g ++ newBlocks g h := by
  have h₁ := hfg.size_le
  have h₂ := hgh.size_le
  have hsum : h.blocks.size - f.blocks.size =
      (g.blocks.size - f.blocks.size) + (h.blocks.size - g.blocks.size) := by omega
  have hstart : g.blocks.size = f.blocks.size + (g.blocks.size - f.blocks.size) := by omega
  rw [newBlocks, newBlocks, newBlocks, hsum, ← List.range'_append_1, ← hstart]

namespace Chain

/-- What the arms with the given conditions and bodies leave in a function, given where they go on.
Of the blocks that they create, `own` are neither for a part of the chain nor inside a body. -/
structure Laid (c : Chain) (scope : Scope) (conditions : List Expr) (codes : List (List Stmt))
    (join : Nat) (own : List Nat) (f g : FunctionDraft) : Prop where
  /-- There is a block for the body of every arm, -/
  thens : c.thens.length = conditions.length
  /-- and one for every condition and for a last body without one. -/
  places : c.places.length = codes.length
  /-- These are all new blocks, the first place excepted, but for what the bodies create. -/
  created : (newBlocks f g).Perm
    (own ++ (c.thens ++
      (c.places.tail ++ c.bodies.flatMap fun body => newBlocks body.1.function body.2.function)))
  tests : List.Forall₂
    (fun condition test => Runs (truthOf scope condition) test.1 test.2.1 test.2.2 ∧
    test.2.2.function.current = test.1.function.current) conditions c.tests
  bodies : List.Forall₂ (fun code body => Runs (block scope code) body.1 () body.2 ∧
    body.1.function.Ready) codes c.bodies
  tested : c.tests.map (fun test => test.1.function.current) = c.places.take conditions.length
  entered : c.bodies.map (fun body => body.1.function.current) = c.thens ++
    c.places.drop conditions.length
  /-- A condition leads to the body of its arm and to the next place, or else to where the arms go
  on. -/
  forks : ∀ i test block, c.tests[i]? = some test → c.thens[i]? = some block →
    g.EndsIn test.2.2.function.current
      (.condBr test.2.1 (g.label block) (g.label (c.places[i + 1]?.getD join)))
  /-- Every body leads to where the arms go on. -/
  left : ∀ body ∈ c.bodies, g.EndsIn body.2.function.current (.br (g.label join))
  /-- Nothing else that is new does, but for the last condition if no body follows it. -/
  only : ∀ i, g.Branches i (g.label join) → f.Branches i (g.label join) ∨
    (∃ body ∈ c.bodies, i = body.2.function.current) ∨
      (codes.length = conditions.length ∧ ∃ test, c.tests.getLast? = some test ∧
        i = test.2.2.function.current)

variable {c : Chain} {scope : Scope} {conditions : List Expr} {codes : List (List Stmt)}
  {join : Nat} {own : List Nat} {f g : FunctionDraft}

theorem Laid.switchTo (h : c.Laid scope conditions codes join own f g) (block : Nat) :
    c.Laid scope conditions codes join own f (g.switchTo block) :=
  ⟨h.thens, h.places, h.created, h.tests, h.bodies, h.tested, h.entered, h.forks, h.left, h.only⟩

theorem Laid.of_switchTo {block : Nat}
    (h : c.Laid scope conditions codes join own (f.switchTo block) g) :
    c.Laid scope conditions codes join own f g :=
  ⟨h.thens, h.places, h.created, h.tests, h.bodies, h.tested, h.entered, h.forks, h.left, h.only⟩

theorem Laid.nil (f : FunctionDraft) (join : Nat) :
    Laid ⟨[], [], [], []⟩ scope [] [] join [] f f := by
  refine ⟨rfl, rfl, ?_, .nil, .nil, rfl, rfl, by simp, by simp, fun _ => Or.inl⟩
  simp [newBlocks]

theorem Laid.last {s s₁ : State} {code : List Stmt} (hready : s.function.Ready)
    (hjoin : join < s.function.blocks.size) (hrun : Runs (block scope code) s () s₁) :
    Laid ⟨[s.function.current], [], [], [(s, s₁)]⟩ scope [] [code] join [] s.function
    (s₁.function.fallTo join) := by
  obtain ⟨hkeeps, hopen⟩ := block_keeps scope code s s₁ hready.opened hrun
  have hlt := Nat.lt_of_lt_of_le hjoin hkeeps.grows.size_le
  have hnamed := hready.named.steps hkeeps.steps
  rw [FunctionDraft.fallTo_of_open hopen]
  refine ⟨rfl, rfl, ?_, .nil, .cons ⟨hrun, hready⟩ .nil, rfl, rfl, by simp, ?_, ?_⟩
  · rw [newBlocks, FunctionDraft.branch, FunctionDraft.terminate_size]
    simp [newBlocks]
  · intro body hbody
    obtain rfl := List.mem_singleton.mp hbody
    rw [FunctionDraft.branch, FunctionDraft.terminate_label]
    exact FunctionDraft.endsIn_terminate hopen _
  · intro i hi
    rw [FunctionDraft.branch, FunctionDraft.terminate_label] at hi ⊢
    rcases hi.of_terminate with hi | ⟨rfl, -⟩
    · rcases block_inward scope code hready.opened hrun i _ hi with hold | ⟨j, hj, hnew, hlabel⟩
      · exact Or.inl hold
      · have hjoined := hnamed.label_inj hj hlt hlabel
        have hle := hnew.resolve_right (by simp)
        omega
    · exact Or.inr (Or.inl ⟨_, List.mem_singleton_self _, rfl⟩)

end Chain

/-- What follows an arm is a chain of arms, which begins in the block that is current. -/
def LeavesChain (scope : Scope) (part : ElsePart) : Prop :=
  ∀ rest, elsePart? scope part = some rest → ∀ join s s', s.function.Ready →
    join < s.function.blocks.size → Runs (rest join) s () s' → ∃ c : Chain,
      c.Laid scope part.conditions part.bodies join [] s.function s'.function ∧
        c.places.head? = some s.function.current

/-! ### An arm and what follows it -/

namespace ArmRun

variable {scope : Scope} {s s' s₁ s₂ s₃ : State} {condition : Expr} {join? : Option Nat}
  {body : Lowering Unit}
  {rest? : Option (Nat → Lowering Unit)} {truth : Value} {k : FunctionDraft.Fork} {i : Nat}

section

variable (h : ArmRun scope condition join? body rest? s s' truth s₁ s₂ s₃ k)

include h

theorem extends_rest :
    k.function.Extends s₃.function :=
  h.extends_then.trans (h.extends_left.trans h.extends_fallTo)

theorem endsIn_condition (hjoin : ∀ join, join? = some join → join < s₁.function.blocks.size) :
    s₃.function.EndsIn s₁.function.current
      (.condBr truth (s₃.function.label k.body) (s₃.function.label k.otherwise)) := by
  obtain ⟨⟨hbody, hotherwise, -⟩, -⟩ := h.places hjoin
  have hends := FunctionDraft.endsIn_fork h.opened truth join? rest?.isSome
  rw [← h.fork] at hends
  rw [h.extends_rest.label_eq hbody, h.extends_rest.label_eq hotherwise]
  exact hends.mono h.extends_rest rfl

theorem endsIn_body (hjoin : ∀ join, join? = some join → join < s₁.function.blocks.size) :
    s₃.function.EndsIn s₂.function.current (.br (s₃.function.label k.join)) := by
  obtain ⟨⟨-, -, hlt⟩, -⟩ := h.places hjoin
  have hends := FunctionDraft.endsIn_terminate h.ran.finish (.br (s₂.function.label k.join))
  have hext := h.extends_fallTo
  rw [FunctionDraft.fallTo_of_open h.ran.finish] at hext
  rw [h.extends_rest.label_eq hlt, ← h.extends_then.label_eq hlt]
  exact hends.mono hext rfl

theorem branches_fork {label : String}
    (hi : k.function.Branches i label) : s₁.function.Branches i label ∨ i = s₁.function.current ∧
      (k.function.label k.body = label ∨ k.function.label k.otherwise = label) := by
  rw [h.fork] at hi ⊢
  exact hi.of_fork

/-- What leads to where both go on, when the body has been left: the body, and the condition if
nothing follows. -/
theorem branches_join (hready : s.function.Ready)
    (hbody : FunctionDraft.Inward none (k.function.switchTo k.body) s₂.function)
    (hjoin : ∀ join, join? = some join → join < s₁.function.blocks.size)
    (hi : (s₂.function.fallTo k.join).Branches i (s₃.function.label k.join)) :
    s.function.Branches i (s₃.function.label k.join) ∨ i = s₂.function.current ∨
      (rest?.isSome = false ∧ i = s₁.function.current) := by
  obtain ⟨⟨hbodyLt, hotherwiseLt, hlt⟩, hne, heq, -⟩ := h.places hjoin
  obtain ⟨k₁, -⟩ := h.condition.appends.keeps scope hready.opened
  have hnamed := hready.named.steps (k₁.steps.trans h.restKeeps.steps)
  have hsame : ∀ j < k.function.blocks.size, k.function.label j = s₃.function.label k.join →
    j = k.join := by
    intro j hj hlabel
    rw [← h.extends_rest.label_eq hj] at hlabel
    exact hnamed.label_inj (Nat.lt_of_lt_of_le hj h.extends_rest.size_le)
      (Nat.lt_of_lt_of_le hlt h.extends_rest.size_le) hlabel
  rw [FunctionDraft.fallTo_of_open h.ran.finish] at hi
  rcases FunctionDraft.Branches.of_terminate hi with hi | ⟨hi, -⟩
  · rcases hbody i _ hi with hi | ⟨j, hj, hnew, hlabel⟩
    · rcases h.branches_fork hi with hi | ⟨hcurrent, hlabel | hlabel⟩
      · have hsame := (h.condition.appends.straight scope).same.1
        exact Or.inl (hi.of_straight k₁.grows h.opened hsame.1 hsame.2)
      · exact absurd (hsame _ hbodyLt hlabel).symm hne
      · exact Or.inr (Or.inr ⟨heq.mp (hsame _ hotherwiseLt hlabel), hcurrent⟩)
    · -- The body leads to blocks of its own, and they have other labels.
      have hext := h.extends_left.trans h.extends_fallTo
      rw [← hext.label_eq hj] at hlabel
      have hjoined := hnamed.label_inj (Nat.lt_of_lt_of_le hj hext.size_le)
        (Nat.lt_of_lt_of_le hlt h.extends_rest.size_le) hlabel
      have hle : k.function.blocks.size ≤ j := hnew.resolve_right (by simp)
      omega
  · exact Or.inr (Or.inl hi)

/-- The blocks that an arm creates before its body. -/
theorem newBlocks_fork :
    (newBlocks s.function k.function).Perm ((if join?.isNone then [k.join] else []) ++
      (k.body :: if rest?.isSome then [k.otherwise] else [])) := by
  rw [newBlocks, ← h.size_condition, h.fork, FunctionDraft.fork_size, Nat.add_sub_cancel_left]
  cases join? with
  | none =>
    cases rest?.isSome with
    | false => exact List.Perm.swap _ _ _
    | true => exact List.perm_append_singleton _ [_, _]
  | some join => cases rest?.isSome <;> exact List.Perm.refl _

theorem ready_then (hready : s.function.Ready)
    (hjoin : ∀ join, join? = some join → join < s₁.function.blocks.size) :
    (k.function.switchTo k.body).Ready := by
  obtain ⟨k₁, o₁⟩ := h.condition.appends.keeps scope hready.opened
  have hfork : s₁.function.Steps k.function ∧
    FunctionDraft.Inward join? s₁.function k.function := by
    rw [h.fork]
    exact ⟨FunctionDraft.steps_fork _ _ _ _, .fork truth _ hjoin⟩
  have hready₁ := hready.step k₁.steps k₁.grows.toExtends o₁
    ((h.condition.appends.straight scope).inward none hready.opened)
  exact hready₁.step (hfork.1.switchTo k.body)
    (h.extends_fork.trans (FunctionDraft.extends_switchTo _ _)) h.open_then
    (hfork.2.switchTo k.body)

theorem ready_otherwise (hready : s.function.Ready)
    (hbody : FunctionDraft.Inward none (k.function.switchTo k.body) s₂.function)
    (hjoin : ∀ join, join? = some join → join < s.function.blocks.size)
    (hsome : rest?.isSome = true) : (s₁.otherwise s₂ k).function.Ready := by
  obtain ⟨k₁, -⟩ := h.condition.appends.keeps scope hready.opened
  obtain ⟨hin, hext⟩ := h.inward_left hready.opened hbody hjoin
  have hsteps := h.thenKeeps.steps.trans (FunctionDraft.steps_fallTo s₂.function k.join)
  exact hready.step ((k₁.steps.trans hsteps).switchTo k.otherwise)
    (hext.trans (FunctionDraft.extends_switchTo _ _))
    (h.open_otherwise hsome) (hin.switchTo k.otherwise)

end

variable {code : List Stmt} {c : Chain} {conditions : List Expr} {codes : List (List Stmt)}

/-- **An arm is put in front of the chain that follows it.** -/
theorem laid (h : ArmRun scope condition join? (block scope code) rest? s s' truth s₁ s₂ s₃ k)
    (hready : s.function.Ready) (hjoin : ∀ join, join? = some join → join < s.function.blocks.size)
    (hc : c.Laid scope conditions codes k.join [] (s₂.function.fallTo k.join) s₃.function)
    (hplaces : c.places = (if rest?.isSome then [k.otherwise] else []) ++ c.places.tail)
    (hlast : rest?.isSome = false → conditions = [] ∧ codes = []) :
    Chain.Laid
      ⟨s.function.current :: c.places, k.body :: c.thens, (s, truth, s₁) :: c.tests,
        (s₁.moved (k.function.switchTo k.body) s₁.storage, s₂) :: c.bodies⟩
      scope (condition :: conditions) (code :: codes) k.join (if join?.isNone then [k.join] else [])
      s.function s₃.function := by
  have hsize := h.size_condition
  rw [← hsize] at hjoin
  obtain ⟨-, -, heq, -⟩ := h.places hjoin
  obtain ⟨k₁, o₁⟩ := h.condition.appends.keeps scope hready.opened
  have hcurrent := (h.condition.appends.straight scope).same.1.1
  refine ⟨?_, ?_, ?_, ?_, ?_, ?_, ?_, ?_, ?_, ?_⟩
  · simp [hc.thens]
  · simp [hc.places]
  · have hleft :
      newBlocks s₂.function s₃.function = newBlocks (s₂.function.fallTo k.join) s₃.function := by
      rw [newBlocks, newBlocks, FunctionDraft.fallTo_of_open h.ran.finish, FunctionDraft.branch,
        FunctionDraft.terminate_size]
    rw [newBlocks_append (k₁.grows.toExtends.trans h.extends_fork) h.extends_rest,
      newBlocks_append h.extends_then (h.extends_left.trans h.extends_fallTo), hleft]
    refine List.perm_iff_count.mpr fun i => ?_
    have hfork := h.newBlocks_fork.count_eq i
    have hfollowed := hc.created.count_eq i
    have hcount := congrArg (List.count i) hplaces
    have hbody : newBlocks (k.function.switchTo k.body) s₂.function =
      newBlocks k.function s₂.function := rfl
    simp only [List.count_append, List.count_cons, List.flatMap_cons, List.cons_append,
      List.tail_cons, List.nil_append, State.moved, hbody] at hfork hfollowed hcount ⊢
    omega
  · exact .cons ⟨h.condition, hcurrent⟩ hc.tests
  · exact .cons ⟨h.body, h.ready_then hready hjoin⟩ hc.bodies
  · simp [hc.tested]
  · simp only [List.map_cons, hc.entered, List.length_cons, List.drop_succ_cons, List.cons_append]
    rfl
  · rintro (_ | i) test block htest hblock
    · obtain rfl := Option.some.inj htest
      obtain rfl := Option.some.inj hblock
      have hnext : c.places[0]?.getD k.join = k.otherwise := by
        cases hrest? : rest?.isSome with
        | true =>
          rw [hplaces, hrest?]
          rfl
        | false =>
          obtain ⟨-, rfl⟩ := hlast hrest?
          rw [List.length_eq_zero_iff.mp hc.places, heq.mpr hrest?]
          rfl
      rw [List.getElem?_cons_succ, hnext]
      exact h.endsIn_condition hjoin
    · exact hc.forks i test block htest hblock
  · intro body hbody
    rcases List.mem_cons.mp hbody with rfl | hbody
    · exact h.endsIn_body hjoin
    · exact hc.left body hbody
  · intro i hi
    rcases hc.only i hi with hi | ⟨body, hbody, rfl⟩ | ⟨hlength, test, htest, rfl⟩
    · rcases h.branches_join hready (block_inward scope code h.open_then h.body) hjoin hi with
        hi | rfl | ⟨hnone, rfl⟩
      · exact Or.inl hi
      · exact Or.inr (Or.inl ⟨_, List.mem_cons_self, rfl⟩)
      · obtain ⟨rfl, rfl⟩ := hlast hnone
        refine Or.inr (Or.inr ⟨rfl, (s, truth, s₁), ?_, rfl⟩)
        rw [List.forall₂_nil_left_iff.mp hc.tests]
        rfl
    · exact Or.inr (Or.inl ⟨body, List.mem_cons_of_mem _ hbody, rfl⟩)
    · refine Or.inr (Or.inr ⟨by simp [hlength], test, ?_, rfl⟩)
      rw [List.getLast?_cons, htest]
      rfl

theorem chain {rest : ElsePart}
    (h : ArmRun scope condition join? (block scope code) (elsePart? scope rest) s s' truth
      s₁ s₂ s₃ k)
    (hready : s.function.Ready) (hjoin : ∀ join, join? = some join → join < s.function.blocks.size)
    (hrest : LeavesChain scope rest) :
    ∃ c : Chain, c.Laid scope (condition :: rest.conditions) (code :: rest.bodies) k.join
        (if join?.isNone then [k.join] else []) s.function s₃.function ∧
      c.places.head? = some s.function.current := by
  cases hpart : elsePart? scope rest with
  | none =>
    have hnone : rest.conditions = [] ∧ rest.bodies = [] := by
      cases rest with
      | none => exact ⟨rfl, rfl⟩
      | body _ => simp [elsePart?] at hpart
      | elseIf _ _ _ => simp [elsePart?] at hpart
    rw [hnone.1, hnone.2]
    refine ⟨_, h.laid hready hjoin (c := ⟨[], [], [], []⟩) ?_ (by rw [hpart]; rfl)
      fun _ => ⟨rfl, rfl⟩, rfl⟩
    rw [h.alone hpart]
    exact .nil _ _
  | some part =>
    have hsome : (elsePart? scope rest).isSome = true := by rw [hpart]; rfl
    have hlt : k.join < (s₁.otherwise s₂ k).function.blocks.size := by
      rw [← h.size_condition] at hjoin
      exact Nat.lt_of_lt_of_le (h.places hjoin).1.2.2 (h.extends_then.trans h.extends_left).size_le
    obtain ⟨c, hc, hfirst⟩ := hrest part hpart k.join _ _
      (h.ready_otherwise hready (block_inward scope code h.open_then h.body) hjoin hsome)
      hlt (h.followed part hpart)
    refine ⟨_, h.laid hready hjoin hc.of_switchTo ?_ (by simp [hsome]), rfl⟩
    rw [hsome, if_pos rfl, List.singleton_append]
    exact (List.cons_head?_tail hfirst).symm

end ArmRun

/-- **Every arm of a chain is in front of what follows it.** -/
theorem leavesChain (scope : Scope) (part : ElsePart) : LeavesChain scope part := by
  intro rest hpart join s s' hready hjoin h
  cases part with
  | none => simp [elsePart?] at hpart
  | body body =>
    rw [elsePart?, Option.some.injEq] at hpart
    rw [← hpart] at h
    obtain ⟨_, s₁, hblock, hfall⟩ := runs_bind.1 h
    obtain ⟨k₁, o₁⟩ := block_keeps scope body s s₁ hready.opened hblock
    obtain rfl := runs_fallTo.1 hfall
    exact ⟨_, .last hready hjoin hblock, rfl⟩
  | elseIf condition body rest' =>
    rw [elsePart?, Option.some.injEq] at hpart
    rw [← hpart] at h
    obtain ⟨_, _, _, s₃, k, harm⟩ :=
      arm_run (block_keeps scope body) (elsePart_keeps scope rest') hready.opened h
    obtain ⟨c, hc, hfirst⟩ :=
      harm.chain hready (by rintro _ ⟨⟩; exact hjoin) (leavesChain scope rest')
    have hsame : k.join = join := by
      rw [harm.fork]
      rfl
    rw [hsame] at hc
    refine ⟨c, ?_, hfirst⟩
    rw [harm.result]
    exact hc

/-! ### Conditionals -/

/-- From where a statement may begin, one leads to where the next may. -/
theorem statement_ready {scope : Scope} {st : Stmt} {s s' : State} (hready : s.function.Ready)
    (h : Runs (statement scope st) s () s') : s'.function.Ready := by
  obtain ⟨hkeeps, hopen⟩ := statement_keeps scope st s s' hready.opened h
  exact hready.step hkeeps.steps hkeeps.grows.toExtends hopen
    (inward_walk.statement scope st s s' hready.opened h).2

/-- The arms of a chain go on in one block, which is where the conditional is left. -/
structure Chain.SharesJoin (c : Chain) (scope : Scope) (conditions : List Expr)
    (codes : List (List Stmt)) (join : Nat)
    (f g : FunctionDraft) : Prop extends c.Laid scope conditions codes join [join] f g where
  /-- The first condition is tested in the block in which the conditional begins. -/
  first : c.places.head? = some f.current
  /-- Only the ends of the bodies lead to the block, and the last condition if no body follows
  it. -/
  preceded : ∀ i, g.Branches i (g.label join) → (∃ body ∈ c.bodies, i = body.2.function.current) ∨
    (codes.length = conditions.length ∧ ∃ test, c.tests.getLast? = some test ∧
      i = test.2.2.function.current)
  current : g.current = join
  /-- The block is empty and waits for its terminator. -/
  empty : ∃ label, g.blocks[join]? = some { label }

theorem ArmRun.sharesJoin {scope : Scope} {condition : Expr} {body : List Stmt} {rest : ElsePart}
    {truth : Value} {s s' s₁ s₂ s₃ : State} {k : FunctionDraft.Fork}
    (h : ArmRun scope condition none (block scope body) (elsePart? scope rest) s s' truth
      s₁ s₂ s₃ k)
    (hready : s.function.Ready) :
    ∃ c : Chain, c.SharesJoin scope (condition :: rest.conditions)
    (body :: rest.bodies) k.join s.function s'.function := by
  obtain ⟨c, hc, hfirst⟩ := h.chain hready (by simp) (leavesChain scope rest)
  obtain ⟨k₁, -⟩ := h.condition.appends.keeps scope hready.opened
  obtain ⟨⟨-, -, hlt⟩, -, -, hnew⟩ := h.places (by simp)
  have hext := k₁.grows.toExtends.trans h.restKeeps.grows.toExtends
  have hnamed := hready.named.steps (k₁.steps.trans h.restKeeps.steps)
  have hs' : s'.function = s₃.function.switchTo k.join := by
    rw [h.result]
    rfl
  rw [hs']
  refine ⟨c, { toLaid :=
    hc.switchTo k.join, first := hfirst, preceded := ?_, current := rfl, empty := h.join_empty }⟩
  intro i hi
  rcases hc.only i hi with hold | hnew'
  · -- A branch from before leads to a block from before.
    obtain ⟨j, hj, hlabel⟩ := hready.branches i _ hold
    rw [← hext.label_eq hj] at hlabel
    have hjoined := hnamed.label_inj (Nat.lt_of_lt_of_le hj hext.size_le)
      (Nat.lt_of_lt_of_le hlt h.extends_rest.size_le) hlabel
    have hle := hnew.resolve_right (by simp)
    rw [h.size_condition] at hle
    omega
  · exact hnew'

/-- **The arms of a conditional share one join.**  Besides the blocks of the bodies, a chain creates
a block for the body of every arm, one for every `ELSE` and `ELSE IF`, and one where all arms go on.
Every body is left for that block, every condition leads to the body of its arm and to what follows
it, or else to that block, and nothing else leads there.  The conditional is left in the block,
which is still empty. -/
theorem arms_share_join {scope : Scope} {condition : Expr} {body : List Stmt} {rest : ElsePart}
    {s s' : State}
    (hready : s.function.Ready) (h : Runs (statement scope (.ifThen condition body rest)) s () s') :
    s'.function.Ready ∧ ∃ (c : Chain) (join : Nat),
      c.SharesJoin scope (condition :: rest.conditions)
      (body :: rest.bodies) join s.function s'.function := by
  refine ⟨statement_ready hready h, ?_⟩
  rw [statement.eq_def] at h
  obtain ⟨_, s₀, htell, hrun⟩ := runs_bind.1 h
  have htold :
    s₀ = { s with log := s.log.push (.lowering (Stmt.ifThen condition body rest).label scope) } :=
    runs_modify.1 htell
  have hfunction : s₀.function = s.function := by rw [htold]
  rw [← hfunction] at hready ⊢
  obtain ⟨truth, s₁, s₂, s₃, k, harm⟩ :=
    arm_run (block_keeps scope body) (elsePart_keeps scope rest) hready.opened hrun
  obtain ⟨c, hc⟩ := harm.sharesJoin hready
  exact ⟨c, k.join, hc⟩

/-- A chain of two arms and a last body, with a return, a conditional and a loop inside. -/
def choosing : Expr × List Stmt × ElsePart :=
  let int : Shape := ⟨.int, 0⟩
  let n : Expr := .var "n" int
  let one : Expr := .constant (.int 1) int
  (.binary .eq n one int, [.ret one],
    .elseIf (.binary .lt n one int) [.ifThen (.binary .eq n one int) [.output n] .none]
      (.body [.whileLoop (.binary .gt n one int) [.output n]]))

/-- Where the chain is lowered: in a subroutine, whose first statement stores `n`. -/
def beforeChoosing : State :=
  (outcome (statement (.subroutine "half")
    (.assign ⟨.var "n" ⟨.int, 0⟩, .constant (.int 1) ⟨.int, 0⟩, .int⟩))
    ((State.start "choosing" "choosing.pc" "none").within "half" [] .i32 ⟨⟨.i32, [], false⟩, [],
      .int⟩)).2

theorem ready_beforeChoosing : beforeChoosing.function.Ready := by
  refine statement_ready ?_ (runs_of_toOption (by decide +kernel))
  exact .start "half" [] .i32

theorem choosing_shares_join : beforeChoosing.function.Ready ∧ ∃ s',
    Runs (statement (.subroutine "half") (.ifThen choosing.1 choosing.2.1 choosing.2.2))
    beforeChoosing () s' ∧
    (beforeChoosing.function.blocks.size, s'.function.blocks.size) = (1, 11) ∧
    s'.function.Ready ∧ ∃ (c : Chain) (join : Nat),
      c.SharesJoin (.subroutine "half") (choosing.1 :: choosing.2.2.conditions)
      (choosing.2.1 :: choosing.2.2.bodies) join
        beforeChoosing.function s'.function := by
  have hrun : Runs (statement (.subroutine "half") (.ifThen choosing.1 choosing.2.1 choosing.2.2))
    beforeChoosing () _ :=
    runs_of_toOption (by decide +kernel)
  exact ⟨ready_beforeChoosing, _,
    hrun, by decide +kernel, arms_share_join ready_beforeChoosing hrun⟩

end Lower

end Pseudocode
