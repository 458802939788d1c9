import Pseudocode.Proofs.Integers.Statements

/-!
Code for conditionals and loops over integers.

The arms of a conditional bind nothing new, so all of them leave the storage as they find it, and
where they meet it is still the same.  Hence what holds of the slots after one arm holds behind the
conditional.  A loop may bind more variables in its body; they have their slots when its test is
made, and entering the body again only those matter that it began with.
-/

namespace Pseudocode.Lower

open Ir

variable {bound bound' : String → Prop} {s s' s₁ s₂ s₃ : State}
  {rest? : Option (Nat → Lowering Unit)}
  {runRest runBody : Nat → Store → Output → Progress} {join? : Option Nat} {truth : Value}
  {k : FunctionDraft.Fork} {body step : Lowering Unit} {condition : Expr}
  {value : Store → Option Int32} {F : FunctionDraft}

/-! ### Storage where paths meet -/

/-- The slots of integers do not depend on where code generation is. -/
theorem State.Integral.move (hs : s.Integral bound) (hroutines : s'.routines = .standard)
    (hprologue : s.function.prologue.toList <+: s'.function.prologue.toList)
    (honly : s'.function.OnlySlots)
    (hstorage : ∀ x, s'.storage[(⟨x, .top⟩ : Symbol)]? = s.storage[(⟨x, .top⟩ : Symbol)]?) :
    s'.Integral bound := by
  refine ⟨?_, ?_, honly, hroutines⟩
  · intro x hx
    rw [hstorage]
    exact hs.slot x hx
  · intro x slot hslot
    rw [hstorage] at hslot
    obtain ⟨hbound, name, heq, hof, hmem⟩ := hs.known x slot hslot
    exact ⟨hbound, name, heq, hof, hprologue.subset hmem⟩

theorem State.Integral.moved (hs : s.Integral bound) {f : FunctionDraft} {storage : Storage}
    (hprologue : f.prologue = s.function.prologue)
    (hstorage : ∀ x, storage[(⟨x, .top⟩ : Symbol)]? = s.storage[(⟨x, .top⟩ : Symbol)]?) :
    (s.moved f storage).Integral bound := by
  refine hs.move hs.routines ?_ ?_ hstorage
  · simp only [State.moved_function, hprologue, List.prefix_refl]
  · intro i hi
    rw [State.moved_function, hprologue] at hi
    exact hs.reserved i hi

theorem State.KeepsSlots.same (h : s.KeepsSlots s') (hs : s.Integral bound)
    (hs' : s'.Integral bound) (x : String) :
    s'.storage[(⟨x, .top⟩ : Symbol)]? = s.storage[(⟨x, .top⟩ : Symbol)]? := by
  cases hslot : s.storage[(⟨x, .top⟩ : Symbol)]? with
  | some slot => exact h.storage x slot hslot
  | none =>
    cases hslot' : s'.storage[(⟨x, .top⟩ : Symbol)]? with
    | none => rfl
    | some slot =>
      obtain ⟨name, hname⟩ := hs.slot x (hs'.known x slot hslot').1
      rw [hslot] at hname
      simp at hname

/-- The slot of an integer has no size to forget. -/
theorem forgetLengths_integral (hs : s.Integral bound) (x : String) :
    (s.storage.forgetLengths .top)[(⟨x, .top⟩ : Symbol)]? = s.storage[(⟨x, .top⟩ : Symbol)]? := by
  rw [Storage.getElem?_forgetLengths]
  cases hslot : s.storage[(⟨x, .top⟩ : Symbol)]? with
  | none => rfl
  | some slot =>
    obtain ⟨-, name, rfl, -⟩ := hs.known x slot hslot
    rfl

/-! ### Conditionals -/

/-- Code for what follows an arm of a conditional, which goes on in a given block. -/
def Continues (code : Nat → Lowering Unit) (bound : String → Prop)
    (run : Nat → Store → Output → Progress) : Prop :=
  ∀ (join : Nat) (s : State), s.Integral bound → s.function.Open → 0 < join →
    join < s.function.blocks.size →
    ∃ s', Runs (code join) s () s' ∧ s'.Integral bound ∧ s.KeepsSlots s' ∧
      ∀ (m : Module) (F : FunctionDraft) (n : Nat), Completed m F → s'.function.Extends F →
        Simulates m F n (F.place s.function) (F.entry join) s.storage s'.storage (run n)

/-- What follows the body of an arm, from the block in which it begins. -/
theorem rest_code (hk : k = s₁.function.fork truth join? rest?.isSome) (hs₁ : s₁.Integral bound)
    (hs₂ : s₂.Integral bound)
    (hprologue : s₁.function.prologue.toList <+: s₂.function.prologue.toList)
    (hmodule : s₂.module = s₁.module)
    (hran : FunctionDraft.Fork.Ran s₁.function s₂.function truth join? rest?.isSome)
    (hpos : 0 < k.join) (hlt : k.join < s₂.function.blocks.size)
    (hrest : ∀ rest, rest? = some rest → Continues rest bound runRest)
    (hnone : rest? = none → ∀ n, runRest n = .done) :
    ∃ s₃, (∀ rest, rest? = some rest → Runs (rest k.join) (s₁.otherwise s₂ k) () s₃) ∧
      (rest? = none → s₃ = s₂.moved (s₂.function.fallTo k.join) s₁.storage) ∧ s₃.Integral bound ∧
      s₁.KeepsSlots s₃ ∧
      ∀ (m : Module) (F : FunctionDraft) (n : Nat), Completed m F → s₃.function.Extends F →
        Simulates m F n (F.entry k.otherwise) (F.entry k.join) s₁.storage s₃.storage
        (runRest n) := by
  have hprologue' : ∀ block :
    Nat, s₁.function.prologue.toList <+: (s₂.function.fallTo block).prologue.toList := by
    intro block
    rw [FunctionDraft.fallTo_prologue]
    exact hprologue
  have honly : ∀ block : Nat, (s₂.function.fallTo block).OnlySlots := by
    intro block i hi
    rw [FunctionDraft.fallTo_prologue] at hi
    exact hs₂.reserved i hi
  cases rest? with
  | none =>
    refine ⟨_, by simp, fun _ => rfl, hs₁.move hs₂.routines (hprologue' _) (honly _) fun _ => rfl,
      ⟨fun _ _ h => h, hmodule⟩, ?_⟩
    intro m F n _ _
    have hsame : k.otherwise = k.join := by rw [hk]; rfl
    rw [hsame, hnone rfl]
    exact Simulates.done fun _ => Reaches.refl _
  | some rest =>
    have hsize : k.join < (s₁.otherwise s₂ k).function.blocks.size := by
      show k.join < (s₂.function.fallTo k.join).blocks.size
      rw [FunctionDraft.fallTo_of_open hran.finish, FunctionDraft.branch,
        FunctionDraft.terminate_size]
      exact hlt
    have hbegin : (s₁.otherwise s₂ k).Integral bound :=
      hs₁.move hs₂.routines (hprologue' _) (honly _) fun _ => rfl
    have hopen : (s₁.otherwise s₂ k).function.Open := by
      rw [hk]
      exact FunctionDraft.open_otherwise hran _
    obtain ⟨s₃, hrun, hs₃, hkeeps, hsim⟩ := hrest rest rfl k.join _ hbegin hopen hpos hsize
    refine ⟨s₃, fun _ heq => Option.some.inj heq ▸ hrun, by simp, hs₃,
      ⟨hkeeps.storage, hkeeps.module.trans hmodule⟩, ?_⟩
    intro m F n hF hext
    have hplace : F.place (s₁.otherwise s₂ k).function = F.entry k.otherwise := by
      funext φ
      obtain ⟨label, hlabel⟩ :
        ∃ label, (s₂.function.fallTo k.join).blocks[k.otherwise]? = some { label } := by
        rw [hk]
        exact FunctionDraft.otherwise_empty hran _
      exact FunctionDraft.place_switchTo hlabel φ
    rw [← hplace]
    exact hsim m F n hF hext

theorem body_code {followed : Bool} (hk : k = s₁.function.fork truth join? followed)
    (hs₁ : s₁.Integral bound)
    (hopen₁ : s₁.function.Open) (hbody : Implements body bound bound runBody)
    (hbodyOpen : KeepsOpen .top body) :
    ∃ s₂, Runs body (s₁.moved (k.function.switchTo k.body) s₁.storage) () s₂ ∧ s₂.Integral bound ∧
      s₁.KeepsSlots s₂ ∧ s₁.function.prologue.toList <+: s₂.function.prologue.toList ∧
      FunctionDraft.Fork.Ran s₁.function s₂.function truth join? followed ∧
      ∀ (m : Module) (F : FunctionDraft) (n : Nat), Completed m F → s₂.function.Extends F →
        Simulates m F n (F.entry k.body) (F.place s₂.function) s₁.storage s₂.storage
        (runBody n) := by
  have hprologue : (k.function.switchTo k.body).prologue = s₁.function.prologue := by
    rw [hk]
    exact FunctionDraft.fork_prologue _ truth join? followed
  have hbegin : (s₁.moved (k.function.switchTo k.body) s₁.storage).Integral bound :=
    hs₁.moved hprologue fun _ => rfl
  have hopen : (s₁.moved (k.function.switchTo k.body) s₁.storage).function.Open := by
    rw [hk]
    exact FunctionDraft.open_body hopen₁ truth join? followed
  obtain ⟨s₂, hrun, hs₂, hkeeps, hsim⟩ := hbody _ hbegin hopen
  obtain ⟨hkept, hopen₂⟩ := hbodyOpen _ _ hopen hrun
  have hgrows := hkept.grows
  have hsteps := hkept.steps.prologue
  rw [State.moved_function, hprologue] at hsteps
  rw [State.moved_function, hk] at hgrows
  refine ⟨s₂, hrun, hs₂, ⟨hkeeps.storage, hkeeps.module⟩, hsteps, ⟨hopen₁, hgrows, hopen₂⟩, ?_⟩
  intro m F n hF hext
  have hplace : F.place (k.function.switchTo k.body) = F.entry k.body := by
    funext φ
    obtain ⟨label, hlabel⟩ : ∃ label, k.function.blocks[k.body]? = some { label } := by
      rw [hk]
      exact FunctionDraft.body_empty hopen₁ truth join? followed
    exact FunctionDraft.place_switchTo hlabel φ
  rw [← hplace]
  exact hsim m F n hF hext

/-- The machine tests the condition of an arm, runs its body or what follows, and goes on where both
do. -/
theorem arm_simulates {runBody runRest : Store → Output → Progress} {is : List Instr} {m : Module}
    {n : Nat}
    (harm : ArmRun .top condition join? body rest? s s' truth s₁ s₂ s₃ k) (hopen : s.function.Open)
    (hs₁ : s₁ = s.emit is) (hjoin : ∀ join, join? = some join → 0 < join ∧
      join < s₁.function.blocks.size)
    (hF : Completed m F) (hext : s₃.function.Extends F) {after : Storage}
    (hcode : ∀ σ φ, Represents F s.storage φ σ →
      Computes m is s.function.nextTemp φ (value σ) fun φ' => TellsNonzero m φ' truth)
    (hbody : Simulates m F n (F.entry k.body) (F.place s₂.function) s.storage s₂.storage runBody)
    (hrest : Simulates m F n (F.entry k.otherwise) (F.entry k.join) s.storage s₃.storage runRest)
    (hafter₂ : ∀ x, after[(⟨x, .top⟩ : Symbol)]? = s₂.storage[(⟨x, .top⟩ : Symbol)]?)
    (hafter₃ : ∀ x, after[(⟨x, .top⟩ : Symbol)]? = s₃.storage[(⟨x, .top⟩ : Symbol)]?) :
    Simulates m F n (F.place s.function) (F.entry k.join) s.storage after fun σ out =>
      .withValue (value σ) out fun w => if w ≠ 0 then runBody σ out else runRest σ out := by
  have htargets := FunctionDraft.fork_targets harm.opened truth rest?.isSome hjoin
  rw [← harm.fork] at htargets
  have hfall : (s₂.function.branch k.join).Extends F := by
    rw [← FunctionDraft.fallTo_of_open harm.ran.finish]
    exact harm.extends_fallTo.trans hext
  have hext₂ : s₂.function.Extends F :=
    (FunctionDraft.extends_terminate harm.ran.finish _).trans hfall
  have hfork : k.function.Extends F := by
    have hgrows := harm.ran.grows.toExtends
    rw [← harm.fork] at hgrows
    exact (FunctionDraft.extends_switchTo k.function k.body).trans (hgrows.trans hext₂)
  have hsize := FunctionDraft.fork_size s₁.function truth join? rest?.isSome
  rw [← harm.fork] at hsize
  have hext₁ : s₁.function.Extends F := by
    have hgrows := (FunctionDraft.grows_fork harm.opened truth join? rest?.isSome).toExtends
    rw [← harm.fork] at hgrows
    exact hgrows.trans hfork
  rw [hs₁] at hext₁
  obtain ⟨rest, t, hplace⟩ := FunctionDraft.place_extend hopen hext₁
  refine (Simulates.test hF.slots hplace hcode ?_ (hbody.reaching ?_ ?_)
    (hrest.reaching ?_ ?_)).mono (Nat.le_succ n)
  · intro φ b hb
    obtain ⟨hints, hhints⟩ : ∃ hints, hints = FunctionDraft.forkHints join? rest?.isSome := ⟨_, rfl⟩
    have hcreated : F.place (s.function.extend is) φ = F.place (s₁.function.created hints) φ := by
      rw [FunctionDraft.place_congr (FunctionDraft.created_current _ _)
        (FunctionDraft.getElem?_created_old _ _ (FunctionDraft.current_lt harm.opened)), hs₁]
      rfl
    have hbranch : ((s₁.function.created hints).condBranch truth k.body k.otherwise).Extends F := by
      rw [hhints]
      rw [harm.fork] at hfork ⊢
      exact hfork
    have hbound : ∀ i ∈ [k.body, k.otherwise, k.join], 0 < i ∧
      i < (s₁.function.created hints).blocks.size := by
      rw [FunctionDraft.created_size, hhints]
      exact htargets
    rw [hcreated, FunctionDraft.step_condBranch hF.named (harm.opened.created _)
      (hbound k.body (by simp)).1
      (hbound k.body (by simp)).2 (hbound k.otherwise (by simp)).1 (hbound k.otherwise (by simp)).2
      hbranch hb]
    cases b <;> rfl
  · intro φ
    have hlt : k.join < s₂.function.blocks.size := by
      have hle := harm.ran.grows.size_le
      rw [← harm.fork] at hle
      have : k.function.blocks.size ≤ s₂.function.blocks.size := hle
      have := (htargets k.join (by simp)).2
      omega
    exact Reaches.of_step
      (FunctionDraft.step_branch m hF.named harm.ran.finish (htargets k.join (by simp)).1 hlt
      hfall φ)
  · intro x name hslot
    rw [← hafter₂]
    exact hslot
  · exact fun _ => Reaches.refl _
  · intro x name hslot
    rw [← hafter₃]
    exact hslot

/-- **An arm of a conditional**, up to the block where all arms go on. -/
theorem arm_code (hcondition : condition.Integral bound)
    (hbody : Implements body bound bound runBody)
    (hbodyOpen : KeepsOpen .top body) (hrest : ∀ rest, rest? = some rest →
      Continues rest bound runRest)
    (hrestKeeps : ∀ rest, rest? = some rest →
      ∀ join s s', s.function.Open → Runs (rest join) s () s' → Keeps .top s s')
    (hnone : rest? = none → ∀ n, runRest n = .done) (hs : s.Integral bound)
    (hopen : s.function.Open)
    (hjoin : ∀ join, join? = some join → 0 < join ∧ join < s.function.blocks.size) :
    ∃ s' truth s₁ s₂ s₃ k, ArmRun .top condition join? body rest? s s' truth s₁ s₂ s₃ k ∧
      Runs (arm .top condition join? body rest?) s () s' ∧ s'.Integral bound ∧ s.KeepsSlots s' ∧
      ∀ (m : Module) (F : FunctionDraft) (n : Nat), Completed m F → s'.function.Extends F →
        Simulates m F n (F.place s.function) (F.entry k.join) s.storage s'.storage fun σ out =>
          .withValue (condition.eval σ) out fun w =>
            if w ≠ 0 then runBody n σ out else runRest n σ out := by
  obtain ⟨truth, is, htruth, -, hcode⟩ := truthOf_code hcondition hs
  obtain ⟨s₁, hemit⟩ : ∃ s₁, s₁ = s.emit is := ⟨_, rfl⟩
  rw [← hemit] at htruth
  have hs₁ : s₁.Integral bound := by rw [hemit]; exact hs.emit is
  have hopen₁ : s₁.function.Open := by rw [hemit]; exact hopen.extend is
  have hstorage₁ : s₁.storage = s.storage := by rw [hemit]; rfl
  have hmodule₁ : s₁.module = s.module := by rw [hemit]; rfl
  have hjoin₁ : ∀ join, join? = some join → 0 < join ∧ join < s₁.function.blocks.size := by
    rw [hemit, State.emit_function, FunctionDraft.extend_size]
    exact hjoin
  obtain ⟨k, hk⟩ : ∃ k, k = s₁.function.fork truth join? rest?.isSome := ⟨_, rfl⟩
  obtain ⟨s₂, hrunBody, hs₂, hkeeps₂, hprologue, hran, hsimBody⟩ :=
    body_code hk hs₁ hopen₁ hbody hbodyOpen
  have htargets := FunctionDraft.fork_targets hopen₁ truth rest?.isSome hjoin₁
  rw [← hk] at htargets
  have hlt : k.join < s₂.function.blocks.size := by
    have hle : (s₁.function.fork truth join? rest?.isSome).function.blocks.size ≤
      s₂.function.blocks.size :=
      hran.grows.size_le
    rw [FunctionDraft.fork_size] at hle
    exact Nat.lt_of_lt_of_le (htargets k.join (by simp)).2 hle
  obtain ⟨s₃, hfollowed, halone, hs₃, hkeeps₃, hsimRest⟩ :=
    rest_code hk hs₁ hs₂ hprologue hkeeps₂.module hran (htargets k.join (by simp)).1 hlt hrest hnone
  obtain ⟨s', hresult⟩ :
    ∃ s', s' = s₃.moved (if join?.isNone then s₃.function.switchTo k.join else s₃.function)
    (s₃.storage.join s₂.storage) := ⟨_, rfl⟩
  have harm : ArmRun .top condition join? body rest? s s' truth s₁ s₂ s₃ k :=
    ArmRun.of_parts hbodyOpen hrestKeeps hopen hk htruth hrunBody hfollowed halone hresult
  -- All variables have the slots that they had, on both paths.
  have hsame₂ := hkeeps₂.same hs₁ hs₂
  have hsame₃ := hkeeps₃.same hs₁ hs₃
  have hafter₃ : ∀ x, s'.storage[(⟨x, .top⟩ : Symbol)]? = s₃.storage[(⟨x, .top⟩ : Symbol)]? := by
    intro x
    rw [hresult, State.moved_storage]
    exact getElem?_join_same (by rw [hsame₂, hsame₃])
  have hafter₂ : ∀ x, s'.storage[(⟨x, .top⟩ : Symbol)]? = s₂.storage[(⟨x, .top⟩ : Symbol)]? := by
    intro x
    rw [hafter₃, hsame₃, hsame₂]
  have hprologue' : s'.function.prologue = s₃.function.prologue := by
    rw [hresult]
    cases join? <;> rfl
  refine ⟨s', truth, s₁, s₂, s₃, k, harm,
    runs_arm.2 ⟨_, _, _, _, _, hk, htruth, hrunBody, hfollowed, halone, hresult⟩, ?_, ⟨?_, ?_⟩, ?_⟩
  · rw [hresult] at hprologue' hafter₃ ⊢
    exact hs₃.moved hprologue' hafter₃
  · intro x slot hslot
    rw [hafter₃, hsame₃, hstorage₁]
    exact hslot
  · rw [hresult, State.moved_module, hkeeps₃.module, hmodule₁]
  · intro m F n hF hext
    have hext₃ : s₃.function.Extends F := by
      rw [hresult] at hext
      cases join? with
      | none => exact (FunctionDraft.extends_switchTo s₃.function k.join).trans hext
      | some join => exact hext
    have hext₂ : s₂.function.Extends F := by
      have hfall := harm.extends_fallTo.trans hext₃
      rw [FunctionDraft.fallTo_of_open hran.finish] at hfall
      exact (FunctionDraft.extends_terminate hran.finish _).trans hfall
    have hbodySim := hsimBody m F n hF hext₂
    have hrestSim := hsimRest m F n hF hext₃
    rw [hstorage₁] at hbodySim hrestSim
    exact arm_simulates harm hopen hemit hjoin₁ hF hext₃
      (fun σ φ hφ => hcode m F σ φ hF.slots hφ) hbodySim hrestSim hafter₂ hafter₃

/-! ### Loops -/

/-- The machine runs the body of a loop and its step, tests, and goes back or on. -/
theorem loop_simulates {kind : String} {is : List Instr} {runBody runStep : Store → Output →
    Progress}
    {m : Module} {n : Nat} (hloop : LoopRun .top kind body step condition s s' truth s₁ s₂ s₃)
    (hs₃ : s₃ = s₂.emit is) (hF : Completed m F) (hext : s'.function.Extends F)
    (hcode : ∀ σ φ, Represents F s₂.storage φ σ →
      Computes m is s₂.function.nextTemp φ (value σ) fun φ' => TellsNonzero m φ' truth)
    (hbody : Simulates m F n (F.place (s.function.enter kind)) (F.place s₁.function)
      (s.storage.forgetLengths .top) s₁.storage runBody)
    (hstep : Simulates m F n (F.place s₁.function) (F.place s₂.function) s₁.storage
      s₂.storage runStep)
    (hslots : ∀ x name, (s.storage.forgetLengths .top)[(⟨x, .top⟩ : Symbol)]? =
      some (intSlot name) → s₂.storage[(⟨x, .top⟩ : Symbol)]? = some (intSlot name))
    (hbefore : ∀ x name, (s.storage.forgetLengths .top)[(⟨x, .top⟩ : Symbol)]? =
      some (intSlot name) → s.storage[(⟨x, .top⟩ : Symbol)]? = some (intSlot name)) :
    Simulates m F n (F.place s.function) (F.place s'.function) s.storage s'.storage
      (repeatWhile (fun σ out => (runBody σ out).andThen runStep) value n) := by
  obtain ⟨hinside, hopen₃⟩ := hloop.inside
  obtain ⟨b, hb⟩ : ∃ b, b = s.function.blocks.size := ⟨_, rfl⟩
  have hpos : 0 < b := by
    have := FunctionDraft.current_lt hloop.opened
    omega
  -- The places of the loop: where it is entered, where it tests and where it is left.
  have hcond : (s₃.function.condBranch truth b (b + 1)).Extends F := by
    rw [hloop.result] at hext
    rw [hb]
    exact (FunctionDraft.extends_switchTo _ (s.function.blocks.size + 1)).trans hext
  have hext₃ : s₃.function.Extends F := (FunctionDraft.extends_terminate hopen₃ _).trans hcond
  have henter : (s.function.enter kind).Extends F := hinside.grows.toExtends.trans hext₃
  have hexit : F.place s'.function = F.entry (b + 1) := by
    funext φ
    obtain ⟨label, hlabel⟩ := hloop.exit_empty
    rw [hloop.result, State.moved_function, hb]
    exact FunctionDraft.place_switchTo
      ((FunctionDraft.getElem?_terminate_ne _ _ hloop.exit_ne).trans hlabel) φ
  have hbegin : F.place (s.function.enter kind) = F.entry b := by
    funext φ
    obtain ⟨label, hlabel⟩ :=
      FunctionDraft.getElem?_enter_new hloop.opened kind (Nat.le_of_eq hb.symm) (by omega)
    rw [FunctionDraft.enter, ← hb]
    rw [FunctionDraft.enter, ← hb] at hlabel
    exact FunctionDraft.place_switchTo hlabel φ
  have hstorage : s'.storage = s₂.storage := by rw [hloop.result, hs₃]; rfl
  rw [hexit, hstorage]
  rw [hbegin] at hbody
  have hsize₃ : b + 1 < s₃.function.blocks.size := by
    obtain ⟨label, hlabel⟩ := hloop.exit_empty
    rw [hb]
    exact (Array.getElem?_eq_some_iff.mp hlabel).1
  refine Simulates.reached
    (Simulates.restrict (Simulates.repeatWhile ?_ (hbody.andThen hstep) ?_ n (Nat.le_refl n))
    hbefore) ?_
  · intro φ
    rw [FunctionDraft.entry]
  · intro j run' hagain
    rw [hs₃] at hext₃
    obtain ⟨rest, t, hplace⟩ := FunctionDraft.place_extend hloop.stepOpen hext₃
    refine Simulates.test hF.slots hplace hcode ?_ (hagain.restrict hslots)
      (Simulates.done fun _ => Reaches.refl _)
    intro φ bit hbit
    have hplace₃ : F.place (s₂.function.extend is) φ = F.place s₃.function φ := by rw [hs₃]; rfl
    rw [hplace₃, FunctionDraft.step_condBranch hF.named hopen₃ hpos (by omega) (by omega) hsize₃
      hcond hbit]
    cases bit <;> rfl
  · intro φ
    have hcreated : F.place s.function φ =
        F.place (s.function.created [kind ++ ".body", kind ++ ".exit"]) φ :=
      (FunctionDraft.place_congr (FunctionDraft.created_current _ _)
        (FunctionDraft.getElem?_created_old _ _ (FunctionDraft.current_lt hloop.opened)) φ).symm
    have hbranch :
      ((s.function.created [kind ++ ".body", kind ++ ".exit"]).branch b).Extends F := by
      rw [FunctionDraft.enter, ← hb] at henter
      exact (FunctionDraft.extends_switchTo _ b).trans henter
    have hlt : b < (s.function.created [kind ++ ".body", kind ++ ".exit"]).blocks.size := by
      rw [FunctionDraft.created_size, hb]
      simp
    rw [hcreated]
    exact Reaches.of_step
      (FunctionDraft.step_branch m hF.named (hloop.opened.created _) hpos hlt hbranch φ)

/-- **A loop**, whose body may bind more variables. -/
theorem implements_loop {kind : String} {runStep : Nat → Store → Output → Progress}
    (hbody : Implements body bound bound' runBody) (hbodyOpen : KeepsOpen .top body)
    (hstep : Implements step bound' bound' runStep) (hstepOpen : KeepsOpen .top step)
    (hcondition : condition.Integral bound') :
    Implements (loop .top kind body step condition) bound bound' fun n =>
      repeatWhile (fun σ out => (runBody n σ out).andThen (runStep n))
      (fun σ => condition.eval σ) n := by
  intro s hs hopen
  have hforget := forgetLengths_integral hs
  have hbegin : (s.moved (s.function.enter kind) (s.storage.forgetLengths .top)).Integral bound :=
    hs.moved (FunctionDraft.enter_prologue _ _) hforget
  have hopenBody := FunctionDraft.open_enter hopen kind
  obtain ⟨s₁, hrunBody, hs₁, hkeeps₁, hsimBody⟩ := hbody _ hbegin hopenBody
  obtain ⟨hgrows₁, hopen₁⟩ := hbodyOpen _ _ hopenBody hrunBody
  obtain ⟨s₂, hrunStep, hs₂, hkeeps₂, hsimStep⟩ := hstep s₁ hs₁ hopen₁
  obtain ⟨hgrows₂, hopen₂⟩ := hstepOpen _ _ hopen₁ hrunStep
  obtain ⟨truth, is, htruth, -, hcode⟩ := truthOf_code hcondition hs₂
  have hrun : Runs (loop .top kind body step condition) s () _ :=
    runs_loop.2 ⟨_, _, _, _, hrunBody, hrunStep, htruth, rfl⟩
  have hloop : LoopRun .top kind body step condition s _ truth s₁ s₂ (s₂.emit is) :=
    ⟨hopen, hrunBody, hgrows₁, hopen₁, hrunStep, hgrows₂, hopen₂, htruth, rfl⟩
  have hslots : ∀ x slot, s.storage[(⟨x, .top⟩ : Symbol)]? = some slot →
      s₂.storage[(⟨x, .top⟩ : Symbol)]? = some slot := by
    intro x slot hslot
    exact hkeeps₂.storage x slot (hkeeps₁.storage x slot ((hforget x).trans hslot))
  refine ⟨_, hrun, ⟨hs₂.slot, hs₂.known, hs₂.reserved, hs₂.routines⟩,
    ⟨hslots, hkeeps₂.module.trans hkeeps₁.module⟩, ?_⟩
  intro m F n hF hext
  have hext₃ : (s₂.emit is).function.Extends F :=
    (FunctionDraft.extends_terminate (hopen₂.extend is) _).trans
      ((FunctionDraft.extends_switchTo _ _).trans hext)
  have hext₂ : s₂.function.Extends F := (FunctionDraft.extends_extend hopen₂ is).trans hext₃
  have hext₁ : s₁.function.Extends F := hgrows₂.grows.toExtends.trans hext₂
  exact loop_simulates hloop rfl hF hext (fun σ φ hφ => hcode m F σ φ hF.slots hφ)
    (hsimBody m F n hF hext₁)
    (hsimStep m F n hF hext₂) (fun x name hslot => hslots x _ ((hforget x).symm.trans hslot))
    fun x name hslot => (hforget x).symm.trans hslot

end Pseudocode.Lower
