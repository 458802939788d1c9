import Pseudocode.Proofs.Grammar.Statements
import Pseudocode.Proofs.Grammar.Targets
import Pseudocode.Proofs.Insulation.Placing
import Pseudocode.Proofs.Layout.Tidy
import Pseudocode.Proofs.Lower.Headers

/-!
Declarations of subroutines as the last statement of a program.

Whether some tokens are the declaration of a subroutine is seen from the keywords that open and
close subroutines: there is a type and the opening keyword at the front, and where that is closed
nothing follows but line breaks (`Declares`). The tokens need not follow the rules otherwise.

If such a declaration can be read then nothing is left of it, since what is derived by the rules
closes as many subroutines as it opens (`Statement.nested`).  So a program that ends in it is read
up to the declaration and then with the declaration as its last statement (`outcome_statements`).
-/

namespace Pseudocode

open Phrase

variable {k : Kind} {params : List Param}

/-! ### Where subroutines are closed -/

/-- Inside so many open subroutines, is there nothing but line breaks behind the place where the
last of them is closed? -/
def closesLast : Nat → List Kind → Bool
  | _, [] => true
  | depth, k :: ks =>
    match k with
    | .keyword .subroutine => closesLast (depth + 1) ks
    | .keyword .endSubroutine =>
      if depth = 1 then ks.all (· == .newline) else closesLast (depth - 1) ks
    | _ => closesLast depth ks

/-- The kinds of tokens are those of a declaration of a subroutine, with nothing behind it. -/
def Declares (ks : List Kind) : Prop :=
  ∃ n first ty rest, ks = breaks n ++ first :: .keyword .subroutine :: rest ∧ TypeName first ty ∧
    closesLast 1 rest = true

/-- The tokens close as many subroutines as they open, and never more than they have opened. -/
def Nested (ts : List Kind) : Prop :=
  ∀ depth us, closesLast (depth + 1) (ts ++ us) = closesLast (depth + 1) us

theorem closesLast_mark (m : Mark) (depth : Nat) (ks : List Kind) :
    closesLast depth (.mark m :: ks) = closesLast depth ks := rfl

namespace Nested

variable {ts us : List Kind}

theorem nil : Nested [] :=
  fun _ _ => rfl

theorem append (hts : Nested ts) (hus : Nested us) : Nested (ts ++ us) := by
  intro depth vs
  rw [List.append_assoc, hts, hus]

theorem cons (hk : ∀ depth ks, closesLast depth (k :: ks) = closesLast depth ks) (hts : Nested ts) :
    Nested (k :: ts) := by
  intro depth us
  rw [List.cons_append, hk, hts]

theorem single (hk : ∀ depth ks, closesLast depth (k :: ks) = closesLast depth ks) : Nested [k] :=
  nil.cons hk

theorem breaks (n : Nat) : Nested (breaks n) := by
  induction n with
  | zero => exact nil
  | succ n ih => exact ih.cons fun _ _ => rfl

theorem enclosed (hts : Nested ts) (m m' : Mark) :
    Nested (.mark m :: (ts ++ [.mark m'])) :=
  (hts.append (.single (closesLast_mark m'))).cons (closesLast_mark m)

theorem subroutine (hts : Nested ts) :
    Nested (.keyword .subroutine :: (ts ++ [.keyword .endSubroutine])) := by
  intro depth us
  show closesLast (depth + 1 + 1) (ts ++ [.keyword .endSubroutine] ++ us) =
    closesLast (depth + 1) us
  rw [List.append_assoc, hts]
  rfl

end Nested

namespace Phrase

theorem closesLast_typeName {ty : Ty} (h : TypeName k ty) (depth : Nat) (ks : List Kind) :
    closesLast depth (k :: ks) = closesLast depth ks := by
  cases h <;> rfl

mutual

theorem Expression.nested : ∀ {ts : List Kind} {e : Bare.Expr}, Expression ts e → Nested ts
  | _, _, .sum h => h.nested
  | _, _, .comparison hl _ hr => hl.nested.append (hr.nested.cons (closesLast_mark _))

theorem Sum.nested : ∀ {ts : List Kind} {e : Bare.Expr}, Sum ts e → Nested ts
  | _, _, .product h => h.nested
  | _, _, .step hl _ hr => hl.nested.append (hr.nested.cons (closesLast_mark _))

theorem Product.nested : ∀ {ts : List Kind} {e : Bare.Expr}, Product ts e → Nested ts
  | _, _, .signed h => h.nested
  | _, _, .step hl _ hr => hl.nested.append (hr.nested.cons (closesLast_mark _))

theorem Signed.nested : ∀ {ts : List Kind} {e : Bare.Expr}, Signed ts e → Nested ts
  | _, _, .atom h => h.nested
  | _, _, .minus h => h.nested.cons (closesLast_mark _)

theorem Atom.nested : ∀ {ts : List Kind} {e : Bare.Expr}, Atom ts e → Nested ts
  | _, _, .int _ => .single fun _ _ => rfl
  | _, _, .double _ => .single fun _ _ => rfl
  | _, _, .string _ => .single fun _ _ => rfl
  | _, _, .var _ => .single fun _ _ => rfl
  | _, _, .element _ h => (h.nested.enclosed _ _).cons fun _ _ => rfl
  | _, _, .call _ h => (h.nested.enclosed _ _).cons fun _ _ => rfl
  | _, _, .parens h => h.nested.enclosed _ _

theorem Arguments.nested : ∀ {ts : List Kind} {args : List Bare.Expr}, Arguments ts args → Nested ts
  | _, _, .none => .nil
  | _, _, .some h => h.nested

theorem MoreArguments.nested : ∀ {ts : List Kind} {args : List Bare.Expr}, MoreArguments ts args →
    Nested ts
  | _, _, .one h => h.nested
  | _, _, .more h hrest => h.nested.append (hrest.nested.cons (closesLast_mark _))

end

theorem Assignable.nested {ts : List Kind} {target : Bare.Target} (h : Assignable ts target) :
    Nested ts := by
  cases h with
  | var name => exact .single fun _ _ => rfl
  | element name h => exact (h.nested.enclosed _ _).cons fun _ _ => rfl

theorem MoreParams.nested {ts : List Kind} (h : MoreParams ts params) : Nested ts := by
  induction h with
  | one name hty => exact (Nested.single fun _ _ => rfl).cons (closesLast_typeName hty)
  | more name hty _ ih =>
    exact ((ih.cons (closesLast_mark _)).cons fun _ _ => rfl).cons (closesLast_typeName hty)

theorem Params.nested {ts : List Kind} (h : Params ts params) : Nested ts := by
  cases h with
  | none => exact .nil
  | some h => exact h.nested

mutual

theorem Statement.nested : ∀ {ts : List Kind} {st : Bare.Stmt}, Statement ts st → Nested ts
  | _, _, .expr h => h.nested
  | _, _, .assign ht h => ht.nested.append (h.nested.cons (closesLast_mark _))
  | _, _, .array _ hty h =>
    ((h.nested.enclosed _ _).cons fun _ _ => rfl).cons (closesLast_typeName hty)
  | _, _, .output h => h.nested.cons fun _ _ => rfl
  | _, _, .input h => h.nested.cons fun _ _ => rfl
  | _, _, .ret h => h.nested.cons fun _ _ => rfl
  | _, _, .ifThen h => h.nested
  | _, _, .whileLoop n h hbody =>
    (h.nested.append ((((Nested.breaks (n + 1)).append hbody.nested).append
      (.single fun _ _ => rfl)).cons fun _ _ => rfl)).cons fun _ _ => rfl
  | _, _, .forLoop _ named n hfirst hbound hbody => by
      have hend : Nested [.keyword .next, .name named] :=
        (Nested.single fun _ _ => rfl).cons fun _ _ => rfl
      have htail := hbound.nested.append (((Nested.breaks (n + 1)).append hbody.nested).append hend)
      exact (((hfirst.nested.append (htail.cons fun _ _ => rfl)).cons (closesLast_mark _)).cons
        fun _ _ => rfl).cons
        fun _ _ => rfl
  | _, _, .subroutine name n hty hparams hbody => by
      have hbody := ((Nested.breaks (n + 1)).append hbody.nested).cons (closesLast_mark .rightParen)
      have hinner := hparams.nested.append hbody
      have hhead := (hinner.cons (closesLast_mark .leftParen)).cons (k := .name name) fun _ _ => rfl
      have hall := hhead.subroutine.cons (closesLast_typeName hty)
      simpa using hall

theorem Conditional.nested : ∀ {ts : List Kind} {condition : Bare.Expr} {body : List Bare.Stmt}
    {rest : Bare.ElsePart}, Conditional ts condition body rest → Nested ts
  | _, _, _, _, .arm n h hbody hrest =>
  (h.nested.append ((((Nested.breaks (n + 1)).append hbody.nested).append
      hrest.nested).cons fun _ _ => rfl)).cons fun _ _ => rfl

theorem Rest.nested : ∀ {ts : List Kind} {rest : Bare.ElsePart}, Rest ts rest → Nested ts
  | _, _, .none => .single fun _ _ => rfl
  | _, _, .body n h =>
    (((Nested.breaks (n + 1)).append h.nested).append (.single fun _ _ => rfl)).cons fun _ _ => rfl
  | _, _, .elseIf h => h.nested.cons fun _ _ => rfl

theorem Block.nested : ∀ {ts : List Kind} {body : List Bare.Stmt}, Block ts body → Nested ts
  | _, _, .nil => .nil
  | _, _, .cons n h hrest => (h.nested.append (Nested.breaks (n + 1))).append hrest.nested

end

/-- What is derived by the tokens of a declaration is a subroutine, and it is closed at its end. -/
theorem Statement.of_subroutine {first : Kind} {ty : Ty} {ts us rest : List Kind} {st : Bare.Stmt}
    (hty : TypeName first ty) (h : Statement ts st)
    (heq : first :: .keyword .subroutine :: rest = ts ++ us) :
    (∃ name params body ty', st = .subroutine name params body ty') ∧
      ∃ inner, Nested inner ∧ rest = inner ++ .keyword .endSubroutine :: us := by
  cases h with
  | expr h =>
    obtain ⟨k, ks, rfl, hk⟩ := h.starts
    obtain ⟨rfl, -⟩ := List.cons.inj heq
    cases hty <;> cases hk
  | assign ht h =>
    cases ht <;> obtain ⟨rfl, -⟩ := List.cons.inj heq <;> cases hty
  | array name hty' h => simp at heq
  | output h =>
    obtain ⟨rfl, -⟩ := List.cons.inj heq
    cases hty
  | input h =>
    obtain ⟨rfl, -⟩ := List.cons.inj heq
    cases hty
  | ret h =>
    obtain ⟨rfl, -⟩ := List.cons.inj heq
    cases hty
  | ifThen h =>
    cases h
    obtain ⟨rfl, -⟩ := List.cons.inj heq
    cases hty
  | whileLoop n h hbody =>
    obtain ⟨rfl, -⟩ := List.cons.inj heq
    cases hty
  | forLoop counter named n hfirst hbound hbody =>
    obtain ⟨rfl, -⟩ := List.cons.inj heq
    cases hty
  | @subroutine _ _ ts us' _ _ name n hty' hparams hbody =>
    obtain ⟨-, heq⟩ := List.cons.inj heq
    obtain ⟨-, rfl⟩ := List.cons.inj heq
    refine ⟨⟨_, _, _, _, rfl⟩,
      .name name :: .mark .leftParen :: (ts ++ .mark .rightParen :: (breaks (n + 1) ++ us')),
      ?_, by simp⟩
    have hbody := ((Nested.breaks (n + 1)).append hbody.nested).cons (closesLast_mark .rightParen)
    exact ((hparams.nested.append hbody).cons (closesLast_mark _)).cons fun _ _ => rfl

end Phrase

/-! ### Reading a declaration -/

namespace Grammar

variable {input : Input} {c : Cursor input} {first : Kind} {ty : Ty} {rest : List Kind}

/-- **A declaration that can be read is a subroutine**, and nothing but line breaks is left. -/
theorem statement_spends (hty : TypeName first ty)
    (hkinds : c.kinds = first :: .keyword .subroutine :: rest) (hclose : closesLast 1 rest = true) :
    ∀ s r s', Runs (statement .top c) s r s' →
      (∃ name params body ty, r.1 = .subroutine name params body ty) ∧
      r.2.val.kinds.all (· == .newline) = true := by
  rintro s ⟨st, c₁, h₁⟩ s' hrun
  have hsound : False → s.Sound input.all .top := False.elim
  obtain ⟨ts, hts, hst, -⟩ := (statement_takes hsound c).of_runs hrun
  obtain ⟨⟨name, params, body, ty', hst'⟩, inner, hinner, rfl⟩ :=
    hst.of_subroutine hty (hkinds.symm.trans hts)
  refine ⟨?_, ?_⟩
  · cases st <;> simp_all [Stmt.bare]
  · rwa [hinner 0] at hclose

theorem kinds_skip_declaration {n : Nat} (hty : TypeName first ty)
    (hkinds : c.kinds = breaks n ++ first :: .keyword .subroutine :: rest) :
    c.skipNewlines.val.kinds = first :: .keyword .subroutine :: rest := by
  have hfirst : (first == .newline) = false := by cases hty <;> rfl
  have hdrop : c.skipNewlines.val.kinds = c.kinds.dropWhile (· == .newline) := by
    rw [Cursor.kinds, Cursor.kinds, Cursor.rest_skipNewlines, List.dropWhile_map]
    rfl
  rw [hdrop, hkinds, List.dropWhile_append_of_pos, List.dropWhile_cons_of_neg (by simp [hfirst])]
  intro k hk
  rw [List.eq_of_mem_replicate hk]
  rfl

/-- **A declaration at the end of a program is its last statement.** -/
theorem outcome_statements {n : Nat} (hstop : input.stop.kind = .eof) (hty : TypeName first ty)
    (hkinds : c.kinds = breaks n ++ first :: .keyword .subroutine :: rest)
    (hclose : closesLast 1 rest = true) (s : Session) :
    outcome (statements c) s =
    outcome (statement .top c.skipNewlines.val >>= fun r => pure [r.1]) s := by
  have hskip := kinds_skip_declaration hty hkinds
  have hspends := statement_spends hty hskip hclose
  rw [statements]
  generalize c.skipNewlines = start at hskip hspends
  obtain ⟨c₁, h₁⟩ := start
  dsimp only at hskip hspends ⊢
  have hgoes : ¬ c₁.atEnd = true := by
    rw [Cursor.atEnd_iff, hskip]
    simp
  rw [if_neg hgoes, outcome_bind, outcome_bind]
  rcases hread : outcome (statement .top c₁) s with ⟨_ | ⟨st, c₂, h₂⟩, s₁⟩
  · rfl
  obtain ⟨-, hspent⟩ := hspends _ _ _ hread
  dsimp only at hspent ⊢
  by_cases hend : c₂.atEnd = true
  · rw [if_pos hend]
  · rw [if_neg hend]
    obtain ⟨k, ks, hks⟩ := List.exists_cons_of_ne_nil fun hnil => hend (Cursor.atEnd_iff.2 hnil)
    rw [hks, List.all_cons, Bool.and_eq_true, beq_iff_eq] at hspent
    obtain ⟨rfl, hall⟩ := hspent
    obtain ⟨⟨c₃, h₃⟩, hbreak, hc₃⟩ := Cursor.skip?_of_kinds hks
    have hnone : statements c₃ = pure [] := statements_of_spent ⟨by simpa [hc₃] using hall, hstop⟩
    rw [Analysis.expect, hbreak]
    simp [hnone]

/-- **A declaration is read in the same way at the end of another program**, whatever is bound at
the top level. -/
theorem program_inStep {input' : Input} {k : Placing input input'} {d : Cursor input'}
    (htail : k.tail = []) (h : k.Stands c d) (hdeclares : Declares c.kinds) :
    InStep k.pairing (fun p q => p = q ∧
      ∃ name params body ty, p = [.subroutine name params body ty])
      (statements c) (statements d) := by
  obtain ⟨n, first, ty, rest, hkinds, hty, hclose⟩ := hdeclares
  have hskip := kinds_skip_declaration hty hkinds
  have hstands := h.skipNewlines.resolve_right fun hends => hends.2 htail
  have hkinds' : d.kinds = breaks n ++ first :: .keyword .subroutine :: rest := by
    rw [h.kinds, htail, hkinds]
    simp
  intro s t hst
  rw [outcome_statements k.stop hty hkinds hclose, outcome_statements k.stop' hty hkinds' hclose]
  have hread := (subroutineStatement_inStep (k := k.pairing) hstands hty hskip).and_left
    (statement_spends hty hskip hclose)
  refine hread.bind ?_ s t hst
  rintro ⟨st, c₁⟩ ⟨_, d₁⟩ ⟨⟨rfl, -⟩, ⟨name, params, body, ty, rfl⟩, -⟩
  exact .pure ⟨rfl, name, params, body, ty, rfl⟩

end Grammar

end Pseudocode
