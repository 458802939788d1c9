import Pseudocode.Proofs.Grammar.Reading

/-!
Telling an assignment from an expression.

A statement that begins with a name is an assignment or an expression, and which of them is settled
before either is read: by a scan over the rest of the line that counts square brackets.  The scan is
right because brackets are balanced in every expression and no expression contains a line break, so
that the first bracket after the name is closed where the index ends.
-/

namespace Pseudocode

open Phrase

variable {e : Bare.Expr} {k : Kind}

/-! ### First tokens -/

/-- Can an expression begin with a token of this kind? -/
def Kind.startsExpression : Kind → Bool
  | .int _ | .double _ | .string _ | .name _ | .mark .leftParen | .mark .minus => true
  | _ => false

def StartsExpression (ts : List Kind) : Prop :=
  ∃ k ks, ts = k :: ks ∧ k.startsExpression = true

theorem StartsExpression.append {ts : List Kind} (h : StartsExpression ts) (us : List Kind) :
    StartsExpression (ts ++ us) := by
  obtain ⟨k, ks, rfl, hk⟩ := h
  exact ⟨k, ks ++ us, rfl, hk⟩

namespace Phrase

theorem Atom.starts {ts : List Kind} (h : Atom ts e) : StartsExpression ts := by
  cases h <;> exact ⟨_, _, rfl, rfl⟩

theorem Signed.starts {ts : List Kind} (h : Signed ts e) : StartsExpression ts := by
  cases h with
  | atom h => exact h.starts
  | minus h => exact ⟨_, _, rfl, rfl⟩

theorem Product.starts : ∀ {ts : List Kind} {e : Bare.Expr}, Product ts e → StartsExpression ts
  | _, _, .signed h => h.starts
  | _, _, .step h _ _ => h.starts.append _

theorem Sum.starts : ∀ {ts : List Kind} {e : Bare.Expr}, Sum ts e → StartsExpression ts
  | _, _, .product h => h.starts
  | _, _, .step h _ _ => h.starts.append _

theorem Expression.starts {ts : List Kind} (h : Expression ts e) : StartsExpression ts := by
  cases h with
  | sum h => exact h.starts
  | comparison h _ _ => exact h.starts.append _

end Phrase

/-! ### Brackets -/

/-- Inside so many open brackets, does the last of them close on the same line, with an assignment
sign after it? -/
def closes : Nat → List Kind → Bool
  | _, [] => false
  | depth, k :: ks =>
    match k with
    | .newline => false
    | .mark .leftBracket => closes (depth + 1) ks
    | .mark .rightBracket =>
      if depth = 1 then ks.head? == some (.mark .assign) else closes (depth - 1) ks
    | _ => closes depth ks

/-- Does an assignment sign follow the first token, or an index in brackets and then the sign? -/
def assigns : List Kind → Bool
  | _ :: .mark .assign :: _ => true
  | _ :: .mark .leftBracket :: ks => closes 1 ks
  | _ => false

namespace Cursor

variable {input : Input} (hstop : input.stop.kind = .eof)

include hstop

theorem beq_kind_peek (c : Cursor input) (hk : k ≠ .eof) :
    (c.peek.kind == k) = (c.kinds.head? == some k) := by
  rw [kind_peek, hstop]
  cases c.kinds with
  | nil => simpa using hk.symm
  | cons k' ks => rfl

theorem closesBeforeAssign_eq (depth : Nat) (c : Cursor input) :
    c.closesBeforeAssign depth = closes depth c.kinds := by
  rw [closesBeforeAssign]
  cases hkinds : c.kinds with
  | nil =>
    rw [step?_of_nil hkinds]
    rfl
  | cons k ks =>
    obtain ⟨⟨d, hd⟩, hpeek, rfl, hstep⟩ := step?_of_kinds hkinds
    rw [hstep, hpeek]
    have ih := fun depth => closesBeforeAssign_eq depth d
    cases k with
    | mark m =>
      cases m with
      | rightBracket =>
        by_cases hdepth : depth = 1
        · simp only [closes, Option.map_some, if_pos hdepth]
          exact beq_kind_peek hstop d (by simp)
        · simp only [closes, Option.map_some, if_neg hdepth]
          exact ih (depth - 1)
      | _ => exact ih _
    | newline => rfl
    | _ => exact ih depth
termination_by c.left

theorem atAssignment_eq (c : Cursor input) : c.atAssignment = assigns c.kinds := by
  unfold atAssignment
  cases hkinds : c.kinds with
  | nil =>
    rw [step?_of_nil hkinds]
    rfl
  | cons k ks =>
    obtain ⟨⟨d, hd⟩, -, rfl, hstep⟩ := step?_of_kinds hkinds
    rw [hstep]
    simp only [Option.map_some]
    rw [kind_peek, hstop, closesBeforeAssign_eq hstop]
    cases d.kinds with
    | nil => rfl
    | cons k' ks =>
      cases k' with
      | mark m => cases m <;> rfl
      | _ => rfl

end Cursor

/-- Brackets are balanced in these tokens, and they stand on one line. -/
def Balanced (ts : List Kind) : Prop :=
  ∀ depth us, closes (depth + 1) (ts ++ us) = closes (depth + 1) us

namespace Balanced

variable {ts us : List Kind}

theorem nil : Balanced [] :=
  fun _ _ => rfl

theorem append (hts : Balanced ts) (hus : Balanced us) : Balanced (ts ++ us) := by
  intro depth vs
  rw [List.append_assoc, hts, hus]

theorem cons (hk : ∀ depth ks, closes depth (k :: ks) = closes depth ks) (hts : Balanced ts) :
    Balanced (k :: ts) := by
  intro depth us
  rw [List.cons_append, hk, hts]

theorem index (hts : Balanced ts) :
    Balanced (.mark .leftBracket :: (ts ++ [.mark .rightBracket])) := by
  intro depth us
  show closes (depth + 1 + 1) (ts ++ [.mark .rightBracket] ++ us) = closes (depth + 1) us
  rw [List.append_assoc, hts]
  rfl

end Balanced

namespace Phrase

theorem closes_sign {m : Mark} {op : BinaryOp} (h : Compares m op ∨ Adds m op ∨ Multiplies m op)
    (depth : Nat) (ks : List Kind) : closes depth (.mark m :: ks) = closes depth ks := by
  rcases h with h | h | h <;> cases h <;> rfl

mutual

theorem Expression.balanced : ∀ {ts : List Kind} {e : Bare.Expr}, Expression ts e → Balanced ts
  | _, _, .sum h => h.balanced
  | _, _, .comparison hl hm hr => hl.balanced.append (hr.balanced.cons (closes_sign (.inl hm)))

theorem Sum.balanced : ∀ {ts : List Kind} {e : Bare.Expr}, Sum ts e → Balanced ts
  | _, _, .product h => h.balanced
  | _, _, .step hl hm hr => hl.balanced.append (hr.balanced.cons (closes_sign (.inr (.inl hm))))

theorem Product.balanced : ∀ {ts : List Kind} {e : Bare.Expr}, Product ts e → Balanced ts
  | _, _, .signed h => h.balanced
  | _, _, .step hl hm hr => hl.balanced.append (hr.balanced.cons (closes_sign (.inr (.inr hm))))

theorem Signed.balanced : ∀ {ts : List Kind} {e : Bare.Expr}, Signed ts e → Balanced ts
  | _, _, .atom h => h.balanced
  | _, _, .minus h => h.balanced.cons fun _ _ => rfl

theorem Atom.balanced : ∀ {ts : List Kind} {e : Bare.Expr}, Atom ts e → Balanced ts
  | _, _, .int _ => Balanced.nil.cons fun _ _ => rfl
  | _, _, .double _ => Balanced.nil.cons fun _ _ => rfl
  | _, _, .string _ => Balanced.nil.cons fun _ _ => rfl
  | _, _, .var _ => Balanced.nil.cons fun _ _ => rfl
  | _, _, .element _ h => h.balanced.index.cons fun _ _ => rfl
  | _, _, .call _ h =>
    ((h.balanced.append (Balanced.nil.cons fun _ _ => rfl)).cons fun _ _ => rfl).cons fun _ _ => rfl
  | _, _, .parens h => (h.balanced.append (Balanced.nil.cons fun _ _ => rfl)).cons fun _ _ => rfl

theorem Arguments.balanced : ∀ {ts : List Kind} {args : List Bare.Expr}, Arguments ts args →
    Balanced ts
  | _, _, .none => .nil
  | _, _, .some h => h.balanced

theorem MoreArguments.balanced : ∀ {ts : List Kind} {args : List Bare.Expr}, MoreArguments ts args →
    Balanced ts
  | _, _, .one h => h.balanced
  | _, _, .more h hrest => h.balanced.append (hrest.balanced.cons fun _ _ => rfl)

end

/-! ### Assignments -/

/-- What is assigned to is seen to be. -/
theorem Assignable.assigns {ts : List Kind} {target : Bare.Target} (h : Assignable ts target)
    (us : List Kind) : assigns (ts ++ .mark .assign :: us) = true := by
  cases h with
  | var name => rfl
  | @element ts _ name he =>
    show closes 1 (ts ++ [.mark .rightBracket] ++ .mark .assign :: us) = true
    rw [List.append_assoc, he.balanced]
    rfl

/-- The tokens are not taken for the beginning of an assignment. -/
def NotAssigned (ts : List Kind) : Prop :=
  ∀ us : List Kind, us.head? ≠ some (.mark .assign) → us.head? ≠ some (.mark .leftBracket) →
    Pseudocode.assigns (ts ++ us) = false

theorem NotAssigned.sign {ts us : List Kind} {m : Mark} {op : BinaryOp} (h : NotAssigned ts)
    (hm : Compares m op ∨ Adds m op ∨ Multiplies m op) : NotAssigned (ts ++ .mark m :: us) := by
  intro vs _ _
  rw [List.append_assoc]
  refine h _ ?_ ?_
  · rcases hm with hm | hm | hm <;> cases hm <;> simp
  · rcases hm with hm | hm | hm <;> cases hm <;> simp

theorem notAssigned_cons {ts : List Kind} (h : StartsExpression ts) : NotAssigned (k :: ts) := by
  obtain ⟨k', ks, rfl, hk'⟩ := h
  intro us _ _
  cases k' with
  | mark m =>
    cases m with
    | assign => cases hk'
    | leftBracket => cases hk'
    | _ => rfl
  | _ => rfl

theorem notAssigned_single (k : Kind) : NotAssigned [k] := by
  intro us hassign hbracket
  cases us with
  | nil => rfl
  | cons k' ks =>
    cases k' with
    | mark m =>
      cases m with
      | assign => exact absurd rfl hassign
      | leftBracket => exact absurd rfl hbracket
      | _ => rfl
    | _ => rfl

/-- An element whose index is balanced is no target unless the sign follows it. -/
theorem notAssigned_element {ts : List Kind} (k : Kind) (h : Balanced ts) :
    NotAssigned (k :: .mark .leftBracket :: (ts ++ [.mark .rightBracket])) := by
  intro us hassign _
  show closes 1 (ts ++ [.mark .rightBracket] ++ us) = false
  rw [List.append_assoc, h]
  show (us.head? == some (.mark .assign)) = false
  simpa using hassign

theorem Atom.notAssigned {ts : List Kind} (h : Atom ts e) : NotAssigned ts := by
  cases h with
  | int value => exact notAssigned_single _
  | double value => exact notAssigned_single _
  | string text => exact notAssigned_single _
  | var name => exact notAssigned_single _
  | element name he => exact notAssigned_element _ he.balanced
  | call name hargs => exact fun us _ _ => rfl
  | parens he => exact notAssigned_cons (he.starts.append _)

theorem Signed.notAssigned {ts : List Kind} (h : Signed ts e) : NotAssigned ts := by
  cases h with
  | atom h => exact h.notAssigned
  | minus h => exact notAssigned_cons h.starts

theorem Product.notAssigned : ∀ {ts : List Kind} {e : Bare.Expr}, Product ts e → NotAssigned ts
  | _, _, .signed h => h.notAssigned
  | _, _, .step h hm _ => h.notAssigned.sign (.inr (.inr hm))

theorem Sum.notAssigned : ∀ {ts : List Kind} {e : Bare.Expr}, Sum ts e → NotAssigned ts
  | _, _, .product h => h.notAssigned
  | _, _, .step h hm _ => h.notAssigned.sign (.inr (.inl hm))

/-- **An expression is not taken for an assignment.** -/
theorem Expression.notAssigned {ts : List Kind} (h : Expression ts e) : NotAssigned ts := by
  cases h with
  | sum h => exact h.notAssigned
  | comparison h hm _ => exact h.notAssigned.sign (.inl hm)

end Phrase

end Pseudocode
