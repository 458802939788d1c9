import Pseudocode.Proofs.Ir.Paths
import Pseudocode.Proofs.Lower.Frame

/-!
Paths through the code of a statement.

What is proved of paths is proved along with code generation.  A stage marks a place in the finished
function `F`, and the code that is generated from one stage to the next is passed on the way from
place to place.  All states are on the way to `F` and to a module with given constant strings
(`State.Within`).  `Leads` says this of two states between which code has been generated: if a path
comes to the place of the first with `d` taken down, then all is well on it until it comes to the
place of the second, and there `Q` holds.

A conditional is passed if its arms are, and where they meet what is known is what both of them
leave (`ArmRun.leadsTo`).  In a loop, what is known where a turn begins has to be what every turn
leaves, too (`LoopRun.leads`).
-/

namespace Pseudocode.Lower

open Ir

/-- The state is on the way to the function `F` in a module with these constant strings. -/
structure State.Within (F : FunctionDraft) (globals : List Global) (s : State) : Prop where
  function : s.function.Extends F
  globals : s.module.globals.toList ⊆ globals

variable {σ : Type} {w : Watch σ} {F : FunctionDraft} {globals : List Global} {scope : Scope}
  {s s₁ s₂ s₃ s' : State} {d : σ} {P Q R T : σ → Prop}

theorem Keeps.within (h : Keeps scope s s') (hs' : s'.Within F globals) : s.Within F globals :=
  ⟨h.grows.toExtends.trans hs'.function, List.Subset.trans h.globals.subset hs'.globals⟩

theorem Appends.within (h : Appends s s') (hopen : s.function.Open) (hs' : s'.Within F globals) :
    s.Within F globals := by
  obtain ⟨is, his⟩ := h.function
  refine ⟨FunctionDraft.Extends.trans ?_ hs'.function,
    List.Subset.trans h.globals.subset hs'.globals⟩
  rw [his]
  exact FunctionDraft.extends_extend hopen is

theorem Appends.open (h : Appends s s') (hopen : s.function.Open) : s'.function.Open := by
  obtain ⟨is, his⟩ := h.function
  rw [his]
  exact hopen.extend is

/-! ### From one state to another -/

/-- The code between the two states is passed in `F` with `d` taken down before it, and `Q` holds
behind it. -/
def Leads (w : Watch σ) (F : FunctionDraft) (globals : List Global) (s s' : State) (d : σ)
    (Q : σ → Prop) : Prop :=
  s'.Within F globals →
    F.build.Confines w {⟨(F.codeAt s.function).1, (F.codeAt s.function).2, d⟩}
    (F.atStage s'.function Q)

namespace Leads

theorem mono (h : Leads w F globals s s' d Q) (hQ : ∀ d', Q d' → R d') :
    Leads w F globals s s' d R :=
  fun hF => (h hF).mono (Set.Subset.refl _) (FunctionDraft.atStage_mono hQ)

theorem of_within (h : s'.Within F globals → Leads w F globals s s' d Q) :
    Leads w F globals s s' d Q :=
  fun hF => h hF hF

theorem confines (h : ∀ d, P d → Leads w F globals s s' d Q) (hF : s'.Within F globals) :
    F.build.Confines w (F.atStage s.function P) (F.atStage s'.function Q) := by
  refine Function.Confines.of_forall ?_
  rintro c ⟨d, hd, rfl⟩
  exact h d hd hF

theorem trans (h₁ : Leads w F globals s s₁ d Q)
    (hwithin : s'.Within F globals → s₁.Within F globals)
    (h₂ : ∀ d₁, Q d₁ → Leads w F globals s₁ s' d₁ R) : Leads w F globals s s' d R :=
  fun hF => (h₁ (hwithin hF)).trans (confines h₂ hF)

theorem still (hcurrent : s'.function.current = s.function.current)
    (hblocks : s'.function.blocks = s.function.blocks) (h : Q d) : Leads w F globals s s' d Q := by
  refine fun _ => Function.Confines.of_subset (Set.singleton_subset_iff.mpr ⟨d, h, ?_⟩)
  rw [FunctionDraft.codeAt_congr hcurrent (by rw [hblocks])]

theorem refl (h : Q d) : Leads w F globals s s d Q :=
  still rfl rfl h

theorem emit (hopen : s.function.Open) {is : List Instr} (h : w.Clears is d Q) :
    Leads w F globals s (s.emit is) d Q :=
  fun hF => FunctionDraft.confines_extend hopen hF.function h

end Leads

/-- Like `Leads`, where the code ends by going on in the block `join`. -/
def LeadsTo (w : Watch σ) (F : FunctionDraft) (globals : List Global) (s s' : State)
    (join : Nat) (d : σ) (Q : σ → Prop) : Prop :=
  s'.Within F globals →
    F.build.Confines w {⟨(F.codeAt s.function).1, (F.codeAt s.function).2, d⟩} (F.atBlock join Q)

theorem LeadsTo.mono {join : Nat} (h : LeadsTo w F globals s s' join d Q) (hQ : ∀ d', Q d' → R d') :
    LeadsTo w F globals s s' join d R :=
  fun hF => (h hF).mono (Set.Subset.refl _) (FunctionDraft.atBlock_mono hQ)

/-- A body goes on where the arms do. -/
theorem Leads.fallTo {join : Nat} (h : Leads w F globals s s₁ d Q) (hF : F.Named)
    (hkeeps : Keeps scope s s₁)
    (hopen : s₁.function.Open) (hjoin : 0 < join ∧ join < s.function.blocks.size) :
    LeadsTo w F globals s (s₁.moved (s₁.function.fallTo join) s₁.storage) join d Q := by
  intro hwithin
  have hbranch := hwithin.function
  rw [State.moved_function, FunctionDraft.fallTo_of_open hopen] at hbranch
  have hwithin₁ : s₁.Within F globals :=
    ⟨(FunctionDraft.extends_terminate hopen _).trans hbranch, hwithin.globals⟩
  exact (h hwithin₁).trans (FunctionDraft.confines_branch hF hopen hjoin.1
    (Nat.lt_of_lt_of_le hjoin.2 hkeeps.grows.toExtends.size_le) hbranch _)

/-! ### Conditionals -/

namespace ArmRun

variable {condition : Expr} {join? : Option Nat} {body : Lowering Unit}
  {rest? : Option (Nat → Lowering Unit)} {truth : Value} {k : FunctionDraft.Fork}

section

variable (h : ArmRun scope condition join? body rest? s s' truth s₁ s₂ s₃ k)

include h

/-- The blocks that an arm leads to are there, and none of them is the first. -/
theorem targets (hjoin : ∀ join, join? = some join → 0 < join ∧ join < s.function.blocks.size) :
    ∀ i ∈ [k.body, k.otherwise, k.join], 0 < i ∧ i < k.function.blocks.size := by
  rw [← (h.condition.appends.straight scope).same.1.2] at hjoin
  have htargets := FunctionDraft.fork_targets h.opened truth rest?.isSome hjoin
  rw [← FunctionDraft.fork_size s₁.function truth join? rest?.isSome, ← h.fork] at htargets
  exact htargets

theorem globals_body :
    s₂.module.globals.toList ⊆ s₃.module.globals.toList := by
  cases rest? with
  | none =>
    rw [h.alone rfl]
    exact List.Subset.refl _
  | some rest => exact (h.followedKeeps rfl).globals.subset

/-- The block where the arms go on is there when what follows the body is generated. -/
theorem target_otherwise (hjoin : ∀ join, join? = some join → 0 < join ∧
    join < s.function.blocks.size) :
    0 < k.join ∧ k.join < (s₁.otherwise s₂ k).function.blocks.size := by
  obtain ⟨hpos, hlt⟩ := h.targets hjoin k.join (by simp)
  have hsize : (s₁.otherwise s₂ k).function.blocks.size = s₂.function.blocks.size := by
    show (s₂.function.fallTo k.join).blocks.size = _
    rw [FunctionDraft.fallTo_of_open h.ran.finish]
    exact FunctionDraft.terminate_size _ _
  rw [hsize]
  exact ⟨hpos, Nat.lt_of_lt_of_le hlt h.extends_then.size_le⟩

theorem within (hs' : s'.Within F globals) :
    s₃.Within F globals := by
  rw [h.result] at hs'
  refine ⟨?_, hs'.globals⟩
  have hfunction : (if join?.isNone then s₃.function.switchTo k.join else s₃.function).Extends F :=
    hs'.function
  split at hfunction
  · exact (FunctionDraft.extends_switchTo _ _).trans hfunction
  · exact hfunction

/-- **A conditional is passed if its arms are.**  Behind its condition `T` holds, and both arms
leave `Q`. -/
theorem leadsTo (hjoin : ∀ join, join? = some join → 0 < join ∧ join < s.function.blocks.size)
    (hF : F.Named) (hcondition : Leads w F globals s s₁ d T)
    (hbody : ∀ d, T d → Leads w F globals (s₁.moved (k.function.switchTo k.body) s₁.storage) s₂ d Q)
    (hrest : rest?.isSome → ∀ d, T d → LeadsTo w F globals (s₁.otherwise s₂ k) s₃ k.join d Q)
    (halone : rest? = none → ∀ d, T d → Q d) : LeadsTo w F globals s s' k.join d Q := by
  intro hwithin'
  have hwithin := h.within hwithin'
  have htargets := h.targets hjoin
  have hfall : (s₂.function.branch k.join).Extends F := by
    rw [← FunctionDraft.fallTo_of_open h.ran.finish]
    exact h.extends_fallTo.trans hwithin.function
  have hwithin₂ : s₂.Within F globals :=
    ⟨(FunctionDraft.extends_terminate h.ran.finish _).trans hfall,
      List.Subset.trans h.globals_body hwithin.globals⟩
  have hwithin₁ : s₁.Within F globals := h.thenKeeps.within hwithin₂
  have hextFork : k.function.Extends F := h.extends_then.trans hwithin₂.function
  -- The branch: from behind the condition to the body, or to what follows it.
  have hbranch :
    F.build.Confines w (F.atStage s₁.function T)
    (F.atBlock k.body T ∪ F.atBlock k.otherwise T) := by
    obtain ⟨hints, hhints⟩ : ∃ hints, hints = FunctionDraft.forkHints join? rest?.isSome := ⟨_, rfl⟩
    have hk : k.function = (s₁.function.created hints).condBranch truth k.body k.otherwise := by
      rw [h.fork, hhints]
      rfl
    have hsize : k.function.blocks.size = (s₁.function.created hints).blocks.size := by
      rw [hk]
      exact FunctionDraft.terminate_size _ _
    have hcur := FunctionDraft.current_lt h.opened
    rw [← FunctionDraft.atStage_congr (FunctionDraft.created_current s₁.function hints)
      (FunctionDraft.getElem?_created_old s₁.function hints hcur) T]
    rw [hsize] at htargets
    rw [hk] at hextFork
    obtain ⟨hbodyPos, hbodyLt⟩ := htargets k.body List.mem_cons_self
    obtain ⟨hotherPos, hotherLt⟩ := htargets k.otherwise (List.mem_cons_of_mem _ List.mem_cons_self)
    exact FunctionDraft.confines_condBranch hF (h.opened.created hints) hbodyPos hbodyLt
      hotherPos hotherLt hextFork T
  have hthen : F.build.Confines w (F.atBlock k.body T) (F.atBlock k.join Q) := by
    obtain ⟨label, hlabel⟩ : ∃ label, k.function.blocks[k.body]? = some { label } := by
      rw [h.fork]
      exact FunctionDraft.body_empty h.opened truth join? rest?.isSome
    rw [← FunctionDraft.atStage_switchTo hlabel]
    obtain ⟨hjoinPos, hjoinLt⟩ := htargets k.join (by simp)
    exact (Leads.confines hbody hwithin₂).trans
      (FunctionDraft.confines_branch hF h.ran.finish hjoinPos
      (Nat.lt_of_lt_of_le hjoinLt h.extends_then.size_le) hfall Q)
  have hother : F.build.Confines w (F.atBlock k.otherwise T) (F.atBlock k.join Q) := by
    cases hrest? : rest? with
    | none =>
      have hsame : k.otherwise = k.join := by
        rw [h.fork, hrest?]
        rfl
      rw [hsame]
      exact Function.Confines.of_subset (FunctionDraft.atBlock_mono (halone hrest?))
    | some rest =>
      obtain ⟨label, hlabel⟩ :
        ∃ label, (s₂.function.fallTo k.join).blocks[k.otherwise]? = some { label } := by
        have hran := h.ran
        rw [hrest?] at hran
        have hk : k = s₁.function.fork truth join? true := by rw [h.fork, hrest?]; rfl
        rw [hk]
        exact FunctionDraft.otherwise_empty hran _
      rw [← FunctionDraft.atStage_switchTo hlabel]
      refine Function.Confines.of_forall ?_
      rintro c ⟨d, hd, rfl⟩
      exact hrest (by rw [hrest?]; rfl) d hd hwithin
  exact (hcondition hwithin₁).trans (hbranch.trans (hthen.union hother))

end

/-- An arm that creates the block where its arms go on ends at the beginning of it. -/
theorem leads (h : ArmRun scope condition none body rest? s s' truth s₁ s₂ s₃ k)
    (hleads : LeadsTo w F globals s s' k.join d Q) : Leads w F globals s s' d Q := by
  intro hwithin
  obtain ⟨label, hlabel⟩ := h.join_empty
  have hstage : F.atStage s'.function Q = F.atBlock k.join Q := by
    rw [h.result]
    exact FunctionDraft.atStage_switchTo hlabel Q
  rw [hstage]
  exact hleads hwithin

end ArmRun

theorem join_length {ours theirs : Storage} {symbol : Symbol} {slot : Slot} {n : Nat}
    (h : (ours.join theirs)[symbol]? = some slot) (hlength : slot.length = some n) :
    (∃ our, ours[symbol]? = some our ∧ our.address = slot.address ∧ our.length = some n) ∧
      ∃ their, theirs[symbol]? = some their ∧ their.address = slot.address ∧
      their.length = some n := by
  have hforget : ∀ found : Slot, found.forget ≠ slot := by
    rintro found rfl
    simp [Slot.forget] at hlength
  rw [Storage.getElem?_join] at h
  cases hours : ours[symbol]? with
  | none =>
    simp only [hours] at h
    obtain ⟨their, -, htheir⟩ := Option.map_eq_some_iff.mp h
    exact absurd htheir (hforget their)
  | some our =>
    simp only [hours, Option.some.injEq] at h
    cases htheirs : theirs[symbol]? with
    | none =>
      rw [htheirs] at h
      exact absurd h (hforget our)
    | some their =>
      rw [htheirs, Slot.meet] at h
      split at h
      · next hsame =>
          rw [h] at hsame
          exact ⟨⟨our, rfl, by rw [h], by rw [h]; exact hlength⟩, their, rfl, hsame.1.symm,
            hsame.2.symm.trans hlength⟩
      · exact absurd h (hforget our)

/-! ### Loops -/

/-- **A loop is passed if its turns are.**  Where a turn begins `T` holds, whether it is the first
or a later one. -/
theorem LoopRun.leads {kind : String} {body step : Lowering Unit} {condition : Expr} {truth : Value}
    (h : LoopRun scope kind body step condition s s' truth s₁ s₂ s₃) (hF : F.Named) (hfirst : T d)
    (hagain : ∀ d, Q d → T d)
    (hturn : ∀ d, T d →
      Leads w F globals (s.moved (s.function.enter kind) (s.storage.forgetLengths scope)) s₃ d Q) :
    Leads w F globals s s' d Q := by
  intro hwithin
  obtain ⟨hinside, hopen₃⟩ := h.inside
  have hpos : 0 < s.function.blocks.size :=
    Nat.lt_of_le_of_lt (Nat.zero_le _) (FunctionDraft.current_lt h.opened)
  have hcond :
    (s₃.function.condBranch truth s.function.blocks.size (s.function.blocks.size + 1)).Extends
    F := by
    have hfunction := hwithin.function
    rw [h.result] at hfunction
    exact (FunctionDraft.extends_switchTo _ _).trans hfunction
  have hwithin₃ : s₃.Within F globals := by
    have hglobals := hwithin.globals
    rw [h.result] at hglobals
    exact ⟨(FunctionDraft.extends_terminate hopen₃ _).trans hcond, hglobals⟩
  have hentered : (s.function.enter kind).Extends F :=
    hinside.grows.toExtends.trans hwithin₃.function
  have hsize : s.function.blocks.size + 1 < s₃.function.blocks.size := by
    obtain ⟨label, hlabel⟩ := h.exit_empty
    exact (Array.getElem?_eq_some_iff.mp hlabel).1
  have hbody : F.atStage (s.function.enter kind) T = F.atBlock s.function.blocks.size T := by
    obtain ⟨label, hlabel⟩ :=
      FunctionDraft.getElem?_enter_new h.opened kind (Nat.le_refl _) (by omega)
    exact FunctionDraft.atStage_switchTo hlabel T
  have hexit : F.atStage s'.function Q = F.atBlock (s.function.blocks.size + 1) Q := by
    obtain ⟨label, hlabel⟩ := h.exit_empty
    rw [h.result]
    exact FunctionDraft.atStage_switchTo
      ((FunctionDraft.getElem?_terminate_ne _ _ h.exit_ne).trans hlabel) Q
  -- The loop is entered by a branch to its body.
  have henter :
    F.build.Confines w (F.atStage s.function (· = d)) (F.atBlock s.function.blocks.size T) := by
    obtain ⟨hints, hhints⟩ : ∃ hints, hints = [kind ++ ".body", kind ++ ".exit"] := ⟨_, rfl⟩
    have hcreated : s.function.blocks.size < (s.function.created hints).blocks.size := by
      rw [FunctionDraft.created_size, hhints]
      simp
    rw [← FunctionDraft.atStage_congr (FunctionDraft.created_current s.function hints)
      (FunctionDraft.getElem?_created_old s.function hints (FunctionDraft.current_lt h.opened))
      (· = d)]
    have hbranch : ((s.function.created hints).branch s.function.blocks.size).Extends F := by
      rw [hhints]
      exact (FunctionDraft.extends_switchTo _ s.function.blocks.size).trans hentered
    exact (FunctionDraft.confines_branch hF (h.opened.created hints) hpos hcreated hbranch _).mono
      (Set.Subset.refl _) (FunctionDraft.atBlock_mono (by rintro _ rfl; exact hfirst))
  rw [hexit]
  refine (henter.mono (Set.singleton_subset_iff.mpr ⟨d, rfl, rfl⟩) (Set.Subset.refl _)).trans
    (Function.Confines.loop (E := F.atStage s₃.function Q) ?_ ?_)
  · rw [← hbody]
    exact Leads.confines (s := s.moved (s.function.enter kind) (s.storage.forgetLengths scope))
      hturn hwithin₃
  · intro e he
    obtain ⟨hok, hmoves⟩ :=
      FunctionDraft.moves_condBranch (w := w) hF hopen₃ hpos (by omega) (Nat.succ_pos _) hsize
      hcond he
    refine ⟨hok, fun c hmove => ?_⟩
    exact (hmoves c hmove).imp_left fun hc => FunctionDraft.atBlock_mono hagain hc

/-! ### Returning -/

/-- Nothing is reached behind a return. -/
theorem Leads.returns {value : Value} (hopen : s₁.function.Open)
    (h : Leads w F globals s s₁ d P) :
    Leads w F globals s (s₁.moved (((s₁.function.leave (some value)).createBlock
      "after.return").2.switchTo s₁.function.blocks.size) s₁.storage) d Q := by
  intro hF
  have hext := ((FunctionDraft.extends_createBlock _ _).trans
    (FunctionDraft.extends_switchTo _ _)).trans hF.function
  have hwithin : s₁.Within F globals :=
    ⟨(FunctionDraft.extends_terminate hopen _).trans hext, hF.globals⟩
  exact ((h hwithin).trans (FunctionDraft.confines_leave hopen hext P)).mono (Set.Subset.refl _)
    (Set.empty_subset _)

/-- A function passes if its setup does, and then its code up to where it returns. -/
theorem passes_routine {start : σ} {name : String} {params : List Ir.Param} {ret : Ir.Ty}
    {value : Value} (hstart : s.function = .start name params ret) (hopen : s'.function.Open)
    (hsetup : w.Clears s'.function.prologue.toList start Q)
    (h : ∀ d, Q d → Leads w (s'.function.leave (some value)) s'.module.globals.toList s s' d R) :
    (s'.function.leave (some value)).build.Passes w start := by
  refine FunctionDraft.passes_build hsetup ?_
  have hentry : (s'.function.leave (some value)).atStage s.function Q =
      (s'.function.leave (some value)).atBlock 0 Q := by
    rw [hstart]
    exact FunctionDraft.atStage_switchTo (FunctionDraft.getElem?_createBlock _ "entry") Q
  rw [← hentry]
  have hwithin : s'.Within (s'.function.leave (some value)) s'.module.globals.toList :=
    ⟨FunctionDraft.extends_terminate hopen _, List.Subset.refl _⟩
  exact (Leads.confines h hwithin).trans
    (FunctionDraft.confines_leave hopen (FunctionDraft.Extends.refl _) R)

end Pseudocode.Lower
