import Pseudocode.Proofs.Lower.Control

/-!
When code generation fails.

A step that changes the function fails for a fault of its operands, or not at all.  A name may have
no slot, and a subroutine may not have been declared or may be given another number of arguments.
Everything else fails only where a part of it does.  A subroutine is taken apart here as its runs
are in `runs_subroutine`, up to the part that fails.

For conditionals and loops there are rules that speak of both outcomes.  They are about conditions
on the state that are `Steady`: between its parts a conditional creates blocks and ends them, and
changes nothing else of the function.
-/

namespace Pseudocode.Lower

open Ir

variable {α : Type} {s : State} {e : LowerError} {scope : Scope} {body : Lowering Unit}
  {params : List Param}

theorem fails_invalid {fault : OperandFault} : Fails (invalid fault : Lowering α) s e ↔
    e = .invalidOperand fault :=
  fails_throw

theorem not_fails_onFunction {change : FunctionDraft → α × FunctionDraft} :
    ¬ Fails (onFunction change) s e :=
  not_fails_modifyGet

/-- Does it make no difference which function is being made, if it has the same name? -/
class Steady (I : State → Prop) : Prop where
  moved : ∀ {s : State} {f : FunctionDraft}, I s → f.name = s.function.name →
    I { s with function := f }

instance (φ : Prop) (I : State → Prop) [Steady I] : Steady fun s => φ ∧ I s :=
  ⟨fun hs hname => ⟨hs.1, Steady.moved hs.2 hname⟩⟩

/-! ### Names -/

theorem fails_slotOf {symbol : Symbol} (h : Fails (slotOf symbol) s e) :
    s.storage[symbol]? = none ∧ e = .unresolvedName symbol.name symbol.scope := by
  rw [slotOf, fails_get_bind] at h
  split at h
  · exact absurd h not_fails_pure
  · next hslot => exact ⟨hslot, fails_throw.1 h⟩

/-- A subroutine has not been declared, or takes another number of arguments. -/
theorem fails_subroutineOf {name : String} {found : Nat}
    (h : Fails (subroutineOf scope name found) s e) :
    s.subroutines[name]? = none ∧ e = .unresolvedName name scope ∨
      ∃ sub, s.subroutines[name]? = some sub ∧ e = .argumentCount name sub.params.length found := by
  rw [subroutineOf, fails_get_bind] at h
  split at h
  · next hsub => exact .inl ⟨hsub, fails_throw.1 h⟩
  · next sub hsub =>
      split at h
      · exact absurd h not_fails_pure
      · exact .inr ⟨sub, hsub, fails_throw.1 h⟩

theorem fails_irTy {ty : Ty} (h : Fails (irTy ty) s e) : irTy? ty = none ∧
    e = .invalidOperand .undetermined := by
  cases ty with
  | undetermined => exact ⟨rfl, fails_invalid.1 h⟩
  | _ => exact absurd h not_fails_pure

/-! ### Subroutines -/

theorem fails_irParams
    (h : Fails (params.mapM fun p => do return (⟨p.name ++ ".arg", ← irTy p.ty⟩ : Ir.Param)) s e) :
    (∃ p ∈ params, irTy? p.ty = none) ∧ e = .invalidOperand .undetermined := by
  induction params generalizing s with
  | nil =>
    rw [List.mapM_nil] at h
    exact absurd h not_fails_pure
  | cons p params ih =>
    rw [List.mapM_cons] at h
    rcases fails_bind.1 h with hone | ⟨q, s₁, _, hrest⟩
    · obtain ⟨hnone, he⟩ := fails_irTy (fails_bind_pure.1 hone)
      exact ⟨⟨p, List.mem_cons_self, hnone⟩, he⟩
    · obtain ⟨⟨q, hq, hnone⟩, he⟩ := ih (fails_bind_pure.1 hrest)
      exact ⟨⟨q, List.mem_cons_of_mem p hq, hnone⟩, he⟩

theorem fails_defaultValue {ty : Ty} (h : Fails (defaultValue ty) s e) :
    ty.isNumeric = false ∧ e = .invalidOperand (.noDefault ty) := by
  cases ty with
  | int => exact absurd h not_fails_pure
  | double => exact absurd h not_fails_pure
  | string => exact ⟨rfl, fails_invalid.1 h⟩
  | undetermined => exact ⟨rfl, fails_invalid.1 h⟩

theorem fails_subroutine {name : String} {ty : Ty}
    (h : Fails (subroutine name params ty body) s e) :
    e = .reservedName name ∨ e = .duplicateSubroutine name ∨
      ((irTy? ty = none ∨ ∃ p ∈ params, irTy? p.ty = none) ∧ e = .invalidOperand .undetermined) ∨
      name ∉ s.subroutines ∧ ∃ irParams ret t, ParamsFit params irParams ∧ irTy? ty = some ret ∧
        t = s.within name irParams ret ⟨⟨ret, irParams.map Ir.Param.ty, false⟩,
          params.map Param.ty, ty⟩ ∧
        (Fails (storeParams (.subroutine name) (params.zip irParams)) t e ∨
          ∃ s₁, Runs (storeParams (.subroutine name) (params.zip irParams)) t () s₁ ∧
            (Fails body s₁ e ∨ ∃ s₂, Runs body s₁ () s₂ ∧ Fails (defaultValue ty) s₂ e)) := by
  rcases fails_check.1 h with ⟨-, he⟩ | ⟨-, hchecked⟩
  · exact .inl he
  rw [fails_get_bind] at hchecked
  rcases fails_check.1 hchecked with ⟨-, he⟩ | ⟨hold, hrest⟩
  · exact .inr (.inl he)
  refine .inr (.inr ?_)
  rcases fails_bind.1 hrest with hparams | ⟨irParams, s₁, hparams, hrest₁⟩
  · obtain ⟨hnone, he⟩ := fails_irParams hparams
    exact .inl ⟨.inr hnone, he⟩
  obtain ⟨hfit, rfl⟩ := runs_irParams hparams
  rcases fails_bind.1 hrest₁ with hty | ⟨ret, s₂, hty, hrest₂⟩
  · obtain ⟨hnone, he⟩ := fails_irTy hty
    exact .inl ⟨.inl hnone, he⟩
  obtain ⟨hret, rfl⟩ := runs_irTy.1 hty
  refine .inr ⟨by simpa using hold, irParams, ret, _, hfit, hret, rfl, ?_⟩
  rw [fails_modify_bind, inFunction, fails_get_bind, fails_modify_bind] at hrest₂
  rcases fails_bind.1 hrest₂ with hcode | ⟨_, _, _, hend⟩
  swap
  · exact absurd hend not_fails_modify
  rcases fails_bind.1 hcode with hstore | ⟨_, s₃, hstore, hrest₃⟩
  · exact .inl hstore
  refine .inr ⟨s₃, hstore, ?_⟩
  rcases fails_bind.1 hrest₃ with hbody | ⟨_, s₄, hbody, hleave⟩
  · exact .inl hbody
  refine .inr ⟨s₄, hbody, ?_⟩
  rw [fails_get_bind] at hleave
  split at hleave
  · exact absurd hleave not_fails_pure
  · rcases fails_bind.1 hleave with hdefault | ⟨_, _, _, hreturn⟩
    · exact hdefault
    · exact absurd hreturn not_fails_onFunction

end Pseudocode.Lower

/-! ### Conditionals and loops -/

namespace Pseudocode.Triple

open Lower

variable {E : LowerError → Prop} {I J K L M : State → Prop} {scope : Scope} {condition : Expr}
  {body : Lowering Unit}

theorem onFunction {α : Type} [Steady I] {change : Ir.FunctionDraft → α × Ir.FunctionDraft}
    (h : ∀ f, (change f).2.name = f.name) : Triple I (onFunction change) (fun _ => I) E :=
  modifyGet fun _ hs => Steady.moved hs (h _)

theorem createBlock [Steady I] (hint : String) : Triple I (createBlock hint) (fun _ => I) E :=
  onFunction fun _ => rfl

theorem switchTo [Steady I] (block : Nat) : Triple I (switchTo block) (fun _ => I) E :=
  onFunction fun _ => rfl

theorem branch [Steady I] (block : Nat) : Triple I (branch block) (fun _ => I) E :=
  onFunction fun _ => rfl

theorem condBranch [Steady I] (truth : Ir.Value) (ifTrue ifFalse : Nat) :
    Triple I (condBranch truth ifTrue ifFalse) (fun _ => I) E :=
  onFunction fun _ => rfl

theorem fallThrough [Steady I] (block : Nat) : Triple I (fallThrough block) (fun _ => I) E := by
  refine bind (get (Q := fun _ => I) fun _ hs => hs) fun s => ?_
  split
  · exact pure fun _ hs => hs
  · exact branch block

/-- An arm of a conditional.  What follows its body begins with the slots from before it, and in the
end the slots of both are joined. -/
theorem arm [Steady I] [Steady J] [Steady K] [Steady M] {join? : Option Nat}
    {rest? : Option (Nat → Lowering Unit)}
    {P : State → Prop} (hcondition : Triple P (truthOf scope condition) (fun _ => I) E)
    (hbody : Triple I body (fun _ => J) E)
    (hback : ∀ s t, I s → J t → K { t with storage := s.storage })
    (hrest : ∀ rest, rest? = some rest → ∀ join, Triple K (rest join) (fun _ => L) E)
    (hnone : rest? = none → ∀ s, K s → L s)
    (hjoin : ∀ s t, J s → L t → M { t with storage := t.storage.join s.storage }) :
    Triple P (arm scope condition join? body rest?) (fun _ => M) E := by
  have hblock : Triple I (arm.joinBlock join?) (fun _ => I) E := by
    cases join? with
    | none => exact createBlock _
    | some join => exact pure fun _ hs => hs
  have hthen : ∀ thenBlock join, Triple I (arm.thenArm body thenBlock join)
      (fun after s => (∃ t, J t ∧ t.storage = after) ∧ K s) E := by
    intro thenBlock join
    refine bind (get (Q := fun a s => a = s ∧ I s) fun _ hs => ⟨rfl, hs⟩) fun a s hs => ?_
    obtain ⟨rfl, hs⟩ := hs
    have hswap : Triple J (swapStorage a.storage) (fun after s => (∃ t, J t ∧ t.storage = after) ∧
      K s) E :=
      modifyGet fun t ht => ⟨⟨t, ht, rfl⟩, hback a t hs ht⟩
    exact bind (switchTo _) (fun _ => bind hbody fun _ => bind (fallThrough join)
      fun _ => hswap) a hs
  have hfinish : ∀ {after : Storage} (join : Nat), (∃ s, J s ∧ s.storage = after) →
      Triple L (arm.finish join? join after) (fun _ => M) E := by
    rintro _ join ⟨s, hs, rfl⟩
    refine bind (modify (Q := fun _ => M) fun t ht => hjoin s t hs ht) fun _ => ?_
    cases join? with
    | none => exact switchTo _
    | some given => exact pure fun _ ht => ht
  refine bind hcondition fun truth => bind (createBlock _) fun thenBlock => ?_
  cases rest? with
  | some rest =>
    refine bind (createBlock _) fun elseBlock => bind hblock fun join => bind (condBranch _ _ _)
      fun _ => ?_
    refine bind (hthen thenBlock join) fun after s ⟨hafter, hs⟩ => ?_
    exact bind (switchTo _) (fun _ => bind (hrest rest rfl join) fun _ => hfinish join hafter) s hs
  | none =>
    refine bind hblock fun join => bind (condBranch _ _ _) fun _ => ?_
    exact bind (hthen thenBlock join) fun after s ⟨hafter, hs⟩ => hfinish join hafter s
      (hnone rfl s hs)

/-- A loop.  The sizes of buffers are forgotten before its body, and its condition comes behind its
step. -/
theorem loop [Steady I] [Steady L] {kind : String} {step : Lowering Unit}
    (hforget : ∀ s, I s → I { s with storage := s.storage.forgetLengths scope })
    (hbody : Triple I body (fun _ => J) E) (hstep : Triple J step (fun _ => K) E)
    (hcondition : Triple K (truthOf scope condition) (fun _ => L) E) :
    Triple I (loop scope kind body step condition) (fun _ => L) E := by
  refine bind (createBlock _) fun bodyBlock => bind (createBlock _) fun exitBlock => ?_
  refine bind (branch _) fun _ => bind (switchTo _) fun _ => bind (modify (Q := fun _ => I) hforget)
    fun _ => ?_
  refine bind hbody fun _ => bind hstep fun _ => bind hcondition fun truth => ?_
  exact bind (condBranch _ _ _) fun _ => switchTo _

end Pseudocode.Triple
