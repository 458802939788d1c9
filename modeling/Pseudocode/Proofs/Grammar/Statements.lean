import Pseudocode.Proofs.Grammar.Expressions

/-!
Statements that are read.

A statement that is read is derived from the tokens that are taken.  Its shapes agree with the
environment before it, and the environment after it is the one that `Stmt.after` says.  A session
that is sound in the scope stays so.  Which scope that is can be seen in the log: that of the
subroutine which has been declared last, until its end has been read.  Again the proof follows the
grammar.

For a whole program the environment begins empty, so its shapes can be found again from nothing
(`allAgree_of_parse`).
-/

namespace Pseudocode

namespace Grammar

open Analysis Phrase

variable {input : Input} {blames : Prop} {s s' : Session} {scope : Scope} {α : Type}

variable {c : Cursor input} {line : Nat} {ts : List Kind}

/-- The session after something has been read that agrees and leads to an environment. -/
structure Reached (input : Input) (blames : Prop) (scope : Scope) (agrees : Prop)
    (env : Environment) (s : Session) : Prop where
  agrees : agrees
  env : s.env = env
  sound : blames → s.Sound input.all scope

/-- The session after a statement. -/
abbrev Leads (input : Input) (blames : Prop) (scope : Scope) (s : Session) (st : Stmt)
    (s' : Session) : Prop :=
  Reached input blames scope (st.Agrees s.env scope) (st.after s.env scope) s'

/-- What is read at the cursor is a statement that is derived from the tokens that are taken, and it
leads where the reading ends. -/
def TakesStmt (blames : Prop) (s : Session) (scope : Scope) (c : Cursor input)
    (m : Analysis (Stmt × c.After)) : Prop :=
  Reads input blames s m fun r s' =>
    ∃ ts, c.kinds = ts ++ r.2.val.kinds ∧ Statement ts r.1.bare ∧ Leads input blames scope s r.1 s'

/-! ### The log -/

theorem scope_push (s : Session) (e : Event) :
    { s with log := s.log.push e }.scope = e.scopeAfter s.scope := by
  simp [Session.scope]

/-- What is read is a statement of which the log has yet to be told. -/
def FindsStmt (blames : Prop) (s : Session) (scope : Scope) (c : Cursor input)
    (m : Analysis (Stmt × c.After)) : Prop :=
  Reads input blames s m fun r s' => ∃ ts, c.kinds = ts ++ r.2.val.kinds ∧ Statement ts r.1.bare ∧
    ∀ line, Leads input blames scope s r.1 { s' with log := s'.log.push (.reduced r.1.label line) }

/-- Only the end of a subroutine leads out of a scope. -/
theorem Reached.told {agrees : Prop} {env : Environment} {st : Stmt}
    (h : Reached input blames scope agrees env s) (hlabel : st.label ≠ "SUBROUTINE") (line : Nat) :
    Reached input blames scope agrees env
    { s with log := s.log.push (.reduced st.label line) } := by
  refine ⟨h.agrees, h.env,
    fun hb => ⟨?_, (h.sound hb).resolved, (h.sound hb).strings, (h.sound hb).returns⟩⟩
  rw [scope_push, (h.sound hb).scope]
  exact if_neg hlabel

theorem reads_told {m : Analysis (Stmt × c.After)} {Q : Stmt × c.After → Session → Prop}
    (hm : Reads input blames s m fun r s' => Q r { s' with
      log := s'.log.push (.reduced r.1.label line) }) :
    Reads input blames s (m >>= fun read => do
      tell (.reduced read.1.label line)
      return (read.1, read.2)) Q := by
  refine hm.bind fun read s₁ hread => ?_
  refine (Reads.modify (Q := fun _ s₂ => s₂ =
    { s₁ with log := s₁.log.push (.reduced read.1.label line) }) rfl).bind ?_
  rintro _ _ rfl
  exact .pure hread

theorem FindsStmt.told {m : Analysis (Stmt × c.After)} (hm : FindsStmt blames s scope c m) :
    TakesStmt blames s scope c (m >>= fun read => do
      tell (.reduced read.1.label line)
      return (read.1, read.2)) :=
  reads_told (hm.mono fun _ _ ⟨ts, hts, hst, hleads⟩ => ⟨ts, hts, hst, hleads line⟩)

theorem resolved_of_isNumeric {ty : Ty} (h : ty.isNumeric = true) : ty.isResolved = true ∧
    ty ≠ .string := by
  cases ty <;> simp_all [Ty.isNumeric, Ty.isResolved]

theorem reads_bindSymbol (hs : blames → s.Sound input.all scope) (symbol : Symbol) (shape : Shape)
    (hresolved : shape.ty.isResolved = true) (hstring : blames → shape.ty = .string →
      Token.HasString input.all) :
    Reads input blames s (bindSymbol symbol shape) fun _ s' =>
      s'.env = s.env.bind symbol shape ∧ (blames → s'.Sound input.all scope) := by
  refine (Reads.modify (Q := fun _ s' => s' = { s with log := s.log.push (.bound symbol shape) })
    rfl).bind ?_
  rintro _ _ rfl
  refine Reads.modify ⟨rfl, fun hb => ⟨?_, ?_, ?_, (hs hb).returns⟩⟩
  · exact (scope_push s _).trans (hs hb).scope
  · intro other hbound
    show ((s.env.bind symbol shape).shape other).ty.isResolved = true
    rw [Environment.shape_bind]
    split
    · exact hresolved
    · next hne =>
      refine (hs hb).resolved other ?_
      have hbound : (s.env.bind symbol shape).contains other = true := hbound
      simpa [hne] using hbound
  · intro other hty
    have hty : ((s.env.bind symbol shape).shape other).ty = .string := hty
    rw [Environment.shape_bind] at hty
    split at hty
    · exact hstring hb hty
    · exact (hs hb).strings other hty

theorem reads_register (hs : blames → s.Sound input.all scope) (name : String) {ty : Ty}
    (hty : ty.isNumeric = true) : Reads input blames s (register name ty) fun _ s' =>
      s'.env = s.env.register name ty ∧ (blames → s'.Sound input.all (.subroutine name)) := by
  refine (Reads.modify (Q := fun _ s' => s' = { s with log := s.log.push (.registered name ty) })
    rfl).bind ?_
  rintro _ _ rfl
  refine Reads.modify ⟨rfl, fun hb => ⟨scope_push s _, (hs hb).resolved, (hs hb).strings, ?_⟩⟩
  intro other ty' hother
  have hother : (s.env.register name ty).returnTy? other = some ty' := hother
  rw [Environment.returnTy?_register] at hother
  split at hother
  · cases hother
    exact hty
  · exact (hs hb).returns other ty' hother

theorem reads_bindParams {name : String} (all : List Param)
    (hall : ∀ p ∈ all, p.ty.isNumeric = true) (hs : blames → s.Sound input.all scope) :
    Reads input blames s (forM all fun p => bindSymbol ⟨p.name, .subroutine name⟩ ⟨p.ty, 0⟩)
    fun _ s' =>
      s'.env = all.foldl (fun env p => env.bind ⟨p.name, .subroutine name⟩ ⟨p.ty, 0⟩) s.env ∧
        (blames → s'.Sound input.all scope) := by
  induction all generalizing s with
  | nil => exact .pure ⟨rfl, hs⟩
  | cons p all ih =>
    obtain ⟨hp, hall⟩ := List.forall_mem_cons.mp hall
    obtain ⟨hresolved, hstring⟩ := resolved_of_isNumeric hp
    rw [List.forM_cons]
    refine (reads_bindSymbol hs _ _ hresolved fun _ h => absurd h hstring).bind ?_
    rintro _ s₁ ⟨henv, hs₁⟩
    rw [List.foldl_cons, ← henv]
    exact ih hall hs₁

/-! ### Statements without a body -/

section

variable (hs : blames → s.Sound input.all scope)

include hs

theorem condition_takes (c : Cursor input) :
    Takes blames s (fun ts e => Expression ts e.bare ∧ e.Fits input blames s scope ∧
      e.ty.isNumeric = true) c (condition scope c) := by
  refine (expression_takes hs c).bind ?_
  rintro ⟨e, c₁⟩ ⟨ts, hts, he, hfits⟩
  exact (looks_requireNumeric hs hfits ⟨_, Input.peek_mem c, rfl⟩).bind fun _ hnumeric =>
    .pure ⟨ts, hts, he, hfits, hnumeric⟩

theorem index_takes (c : Cursor input) (hline : ∃ t ∈ input.all, t.line = line) :
    Takes blames s (fun ts e => (∃ us, ts = us ++ [.mark .rightBracket] ∧ Expression us e.bare) ∧
      e.Fits input blames s scope ∧ e.ty.isNumeric = true) c (index scope line c) := by
  refine (expression_takes hs c).bind ?_
  rintro ⟨e, c₁, h₁⟩ ⟨ts, hts, he, hfits⟩
  refine (looks_requireNumeric hs hfits hline).bind fun _ hnumeric => Looks.expect.bind ?_
  rintro ⟨c₂, h₂⟩ hclose
  refine .pure ⟨ts ++ [.mark .rightBracket], ?_, ⟨ts, rfl, he⟩, hfits, hnumeric⟩
  simp [hts, hclose]

theorem assignment_takes (c : Cursor input) :
    Reads input blames s (assignment scope c) fun r s' => ∃ us vs,
      c.kinds = us ++ .mark .assign :: vs ++ r.2.val.kinds ∧ Assignable us r.1.target.bare ∧
        Expression vs r.1.value.bare ∧ Leads input blames scope s (.assign r.1) s' := by
  have hline : ∃ t ∈ input.all, t.line = c.peek.line := ⟨_, Input.peek_mem c, rfl⟩
  refine Looks.expectName.next ?_
  rintro ⟨name, c₁, h₁⟩ ⟨hkinds, hname⟩
  cases hskip : c₁.skip? (.mark .leftBracket) with
  | some found =>
    obtain ⟨c₂, h₂⟩ := found
    simp only [hskip]
    refine (looks_requireBound hs hname hline).next
      fun _ hbound => (index_takes hs c₂ hline).next ?_
    rintro ⟨i, c₃, h₃⟩ ⟨_, hts, ⟨us, rfl, hi⟩, hindex, hinumeric⟩
    refine Looks.expect.next ?_
    rintro ⟨c₄, h₄⟩ hassign
    refine (expression_takes hs c₄).next ?_
    rintro ⟨value, c₅, h₅⟩ ⟨vs, hvs, hvalue, hfits⟩
    refine (looks_requireResolved hs hfits hline).next fun _ hresolved => Looks.env.next ?_
    rintro _ rfl
    refine .guard (fun hstring => ⟨trivial, fun hb => ⟨hline, nofun, nofun, ?_⟩⟩) fun hnot => ?_
    · rintro _ _ ⟨⟩
      exact (hfits.known hb).string hstring
    · have hnumeric : value.ty.isNumeric = true := by
        cases hty : value.ty <;> simp_all [Ty.isResolved, Ty.isNumeric]
      refine .pure ⟨_, vs, ?_, .element name hi, hvalue,
        ⟨hfits.agrees, hbound, hindex.agrees, hinumeric, hnumeric, rfl, rfl⟩, rfl, hs⟩
      simp [hkinds, Cursor.kinds_of_skip? hskip, hts, hassign, hvs]
  | none =>
    simp only [hskip]
    refine Looks.expect.next ?_
    rintro ⟨c₂, h₂⟩ hassign
    refine (expression_takes hs c₂).next ?_
    rintro ⟨value, c₃, h₃⟩ ⟨vs, hvs, hvalue, hfits⟩
    refine (looks_requireResolved hs hfits hline).next fun _ hresolved => ?_
    refine (reads_bindSymbol hs _ _ hresolved fun hb => (hfits.known hb).string).bind ?_
    rintro _ s₁ ⟨henv, hs₁⟩
    refine .pure ⟨_, vs, ?_, .var name, hvalue, ⟨hfits.agrees, hresolved, rfl, rfl⟩, henv, hs₁⟩
    simp [hkinds, hassign, hvs]

theorem arrayDeclaration_finds (c : Cursor input) :
    FindsStmt blames s scope c (arrayDeclaration scope c) := by
  refine Looks.expectType.next ?_
  rintro ⟨ty, c₁, h₁⟩ ⟨k, hty, hk⟩
  refine Looks.expectName.next ?_
  rintro ⟨name, c₂, h₂⟩ ⟨hname, -⟩
  refine Looks.expect.next ?_
  rintro ⟨c₃, h₃⟩ hopen
  refine (expression_takes hs c₃).next ?_
  rintro ⟨size, c₄, h₄⟩ ⟨ts, hts, hsize, hfits⟩
  refine (looks_requireNumeric hs hfits ⟨_, Input.peek_mem c₃, rfl⟩).next
    fun _ hnumeric => Looks.expect.next ?_
  rintro ⟨c₅, h₅⟩ hclose
  have htyNumeric := isNumeric_of_typeName hty
  obtain ⟨hresolved, hstring⟩ := resolved_of_isNumeric htyNumeric
  refine (reads_bindSymbol hs _ _ hresolved fun _ h => absurd h hstring).bind ?_
  rintro _ s₁ ⟨henv, hs₁⟩
  refine .pure
    ⟨_, ?_, .array name hty hsize, Reached.told ⟨⟨hfits.agrees, hnumeric, htyNumeric⟩, henv, hs₁⟩
    (by simp [Stmt.label])⟩
  simp [hk, hname, hopen, hts, hclose]

theorem returnStatement_finds (c : Cursor input) :
    FindsStmt blames s scope c (returnStatement scope c) := by
  refine Looks.expect.next ?_
  rintro ⟨c₁, h₁⟩ hword
  refine .guard (fun _ => SourceError.explained_grammar (Input.peek_mem c) nofun) fun hscope =>
    (expression_takes hs c₁).next ?_
  rintro ⟨e, c₂, h₂⟩ ⟨ts, hts, he, hfits⟩
  refine (looks_requireResolved hs hfits ⟨_, Input.peek_mem c, rfl⟩).next fun _ hresolved => ?_
  refine .pure
    ⟨_, ?_, .ret he,
      Reached.told ⟨⟨hscope, hfits.agrees, hresolved⟩, rfl, hs⟩ (by simp [Stmt.label])⟩
  simp [hword, hts]

theorem outputStatement_finds (c : Cursor input) :
    FindsStmt blames s scope c (outputStatement scope c) := by
  refine Looks.expect.next ?_
  rintro ⟨c₁, h₁⟩ hword
  refine (expression_takes hs c₁).next ?_
  rintro ⟨e, c₂, h₂⟩ ⟨ts, hts, he, hfits⟩
  refine (looks_requireResolved hs hfits ⟨_, Input.peek_mem c, rfl⟩).next fun _ hresolved => ?_
  refine .pure
    ⟨_, ?_, .output he, Reached.told ⟨⟨hfits.agrees, hresolved⟩, rfl, hs⟩ (by simp [Stmt.label])⟩
  simp [hword, hts]

theorem inputStatement_finds (c : Cursor input) :
    FindsStmt blames s scope c (inputStatement scope c) := by
  refine Looks.expect.next ?_
  rintro ⟨c₁, h₁⟩ hword
  have hline : ∃ t ∈ input.all, t.line = c₁.peek.line := ⟨_, Input.peek_mem c₁, rfl⟩
  refine Looks.expectName.next ?_
  rintro ⟨name, c₂, h₂⟩ ⟨hkinds, hname⟩
  refine (looks_requireBound hs hname hline).next fun _ hbound => Looks.env.next ?_
  rintro _ rfl
  cases hskip : c₂.skip? (.mark .leftBracket) with
  | some found =>
    obtain ⟨c₃, h₃⟩ := found
    refine (index_takes hs c₃ hline).next ?_
    rintro ⟨i, c₄, h₄⟩ ⟨_, hts, ⟨us, rfl, hi⟩, hfits, hnumeric⟩
    refine .pure ⟨_, ?_, .input (.element name hi),
      Reached.told ⟨⟨⟨hbound, hfits.agrees, hnumeric, rfl⟩, rfl⟩, rfl, hs⟩ (by simp [Stmt.label])⟩
    simp [hword, hkinds, Cursor.kinds_of_skip? hskip, hts]
  | none =>
    refine .pure ⟨_, ?_, .input (.var name),
      Reached.told ⟨⟨⟨hbound, rfl⟩, rfl⟩, rfl, hs⟩ (by simp [Stmt.label])⟩
    simp [hword, hkinds]

theorem expressionStatement_finds (c : Cursor input) :
    FindsStmt blames s scope c (expressionStatement scope c) := by
  refine (expression_takes hs c).next ?_
  rintro ⟨e, c₁⟩ ⟨ts, hts, he, hfits⟩
  refine (looks_requireResolved hs hfits ⟨_, Input.peek_mem c, rfl⟩).next fun _ hresolved => ?_
  exact .pure ⟨ts, hts, .expr he,
    Reached.told ⟨⟨hfits.agrees, hresolved⟩, rfl, hs⟩ (by simp [Stmt.label])⟩

end

/-! ### The heads of subroutines and loops -/

theorem moreParams_takes (seen : List Param) (c : Cursor input) :
    Takes blames s (fun ts all => ∃ new, all = seen ++ new ∧ MoreParams ts new) c
    (moreParams seen c) := by
  unfold Takes
  rw [moreParams]
  refine Looks.expectType.bind ?_
  rintro ⟨ty, c₁, h₁⟩ ⟨k, hty, hk⟩
  refine Looks.expectName.bind ?_
  rintro ⟨name, c₂, h₂⟩ ⟨hname, -⟩
  refine Reads.guard (fun _ => SourceError.explained_grammar (Input.peek_mem c₁) nofun) fun _ => ?_
  cases hskip : c₂.skip? (.mark .comma) with
  | some found =>
    obtain ⟨c₃, h₃⟩ := found
    refine (moreParams_takes _ c₃).bind ?_
    rintro ⟨all, c₄, h₄⟩ ⟨ts, hts, new, rfl, hmore⟩
    refine .pure ⟨_, ?_, _, List.append_assoc _ _ _, .more name hty hmore⟩
    simp [hk, hname, Cursor.kinds_of_skip? hskip, hts]
  | none =>
    refine Looks.pure ⟨_, ?_, _, rfl, .one name hty⟩
    simp [hk, hname]
termination_by c.left

theorem params_takes (c : Cursor input) : Takes blames s Params c (params c) := by
  unfold Takes
  rw [params]
  by_cases hclose : c.peek.kind = .mark .rightParen
  · rw [if_pos hclose]
    exact .pure ⟨[], rfl, .none⟩
  · rw [if_neg hclose]
    refine (moreParams_takes [] c).bind ?_
    rintro ⟨all, c₁, h₁⟩ ⟨ts, hts, new, rfl, hmore⟩
    exact .pure ⟨ts, hts, .some hmore⟩

theorem isNumeric_of_moreParams {all : List Param} (h : MoreParams ts all) :
    ∀ p ∈ all, p.ty.isNumeric = true := by
  induction h with
  | one name hty => simpa using isNumeric_of_typeName hty
  | more name hty _ ih => exact List.forall_mem_cons.2 ⟨isNumeric_of_typeName hty, ih⟩

theorem isNumeric_of_params {all : List Param} (h : Params ts all) :
    ∀ p ∈ all, p.ty.isNumeric = true := by
  cases h with
  | none => simp
  | some hmore => exact isNumeric_of_moreParams hmore

/-- The head of a subroutine is read at the top level, and leads into the scope of the
subroutine. -/
theorem subroutineHead_takes (hs : blames → s.Sound input.all scope) (c : Cursor input) :
    Reads input blames s (subroutineHead scope c) fun r s' => ∃ k us, TypeName k r.1.1 ∧
    Params us r.1.2.2 ∧
      c.kinds = k :: .keyword .subroutine :: .name r.1.2.1 :: .mark .leftParen ::
        (us ++ .mark .rightParen :: .newline :: r.2.val.kinds) ∧
      Reached input blames (.subroutine r.1.2.1) (scope = .top)
      (s.env.enter r.1.2.1 r.1.2.2 r.1.1) s' := by
  refine Looks.expectType.next ?_
  rintro ⟨ty, c₁, h₁⟩ ⟨k, hty, hk⟩
  refine Looks.expect.next ?_
  rintro ⟨c₂, h₂⟩ hword
  cases scope with
  | subroutine outer =>
    exact (Reads.reject (Q := fun _ _ => False) (Input.peek_mem c₁) (by nofun)).bind
      fun _ _ hfalse => hfalse.elim
  | top =>
    refine Looks.expectName.next ?_
    rintro ⟨name, c₃, h₃⟩ ⟨hname, -⟩
    refine Looks.expect.next ?_
    rintro ⟨c₄, h₄⟩ hopen
    refine (params_takes c₄).next ?_
    rintro ⟨all, c₅, h₅⟩ ⟨us, hus, hparams⟩
    refine Looks.expect.next ?_
    rintro ⟨c₆, h₆⟩ hclose
    refine (reads_register hs name (isNumeric_of_typeName hty)).bind ?_
    rintro _ s₁ ⟨henv₁, hs₁⟩
    refine (reads_bindParams all (isNumeric_of_params hparams) hs₁).bind fun _ s₂
      ⟨henv₂, hs₂⟩ => Looks.expect.next ?_
    rintro ⟨c₇, h₇⟩ hbreak
    refine .pure ⟨k, us, hty, hparams, ?_, rfl, by rw [henv₂, henv₁]; rfl, hs₂⟩
    simp [hk, hword, hname, hopen, hus, hclose, hbreak]

/-- A place whose second token is the assignment sign is a variable. -/
theorem eq_var_of_assignable {us : List Kind} {target : Target} (h : Assignable ts target.bare)
    (hsecond : (ts ++ .mark .assign :: us)[1]? = some (.mark .assign)) :
    ∃ name shape, target = .var name shape ∧ ts = [.name name] := by
  cases target with
  | var name shape =>
    cases h
    exact ⟨name, shape, rfl, rfl⟩
  | element name index ty =>
    cases h
    simp at hsecond

/-- A loop variable that is no number is a string. -/
theorem hasString_of_assign {a : Assignment} {name : String} {shape : Shape}
    (htarget : a.target = .var name shape)
    (h : Leads input blames scope s (.assign a) s') (hb : blames)
    (hnumeric : ¬ a.ty.isNumeric = true) : Token.HasString input.all := by
  obtain ⟨hagrees, henv, hsound⟩ := h
  rw [Stmt.Agrees, Assignment.Agrees, htarget] at hagrees
  obtain ⟨-, hresolved, rfl, hty⟩ := hagrees
  rw [Stmt.after, Assignment.after, htarget] at henv
  refine (hsound hb).strings ⟨name, scope⟩ ?_
  rw [henv, Environment.shape_bind, if_pos rfl]
  show a.value.ty = .string
  rw [hty] at hnumeric
  cases hcase : a.value.ty <;> simp_all [Ty.isNumeric, Ty.isResolved]

theorem forHead_takes (hs : blames → s.Sound input.all scope) (c : Cursor input) :
    Reads input blames s (forHead scope c) fun r s' => ∃ counter us vs,
    r.1.1.target.bare = .var counter ∧
      Expression us r.1.1.value.bare ∧ Expression vs r.1.2.bare ∧
      c.kinds = .keyword .forWord :: .name counter :: .mark .assign ::
        (us ++ .keyword .toWord :: (vs ++ .newline :: r.2.val.kinds)) ∧
      Reached input blames scope ((Stmt.forLoop r.1.1 r.1.2 []).Agrees s.env scope)
      (r.1.1.after s.env scope) s' := by
  refine Looks.expect.next ?_
  rintro ⟨c₁, h₁⟩ hword
  refine .require (fun _ => SourceError.explained_grammar (Input.peek_mem c₁) nofun)
    fun hstart => ?_
  refine (assignment_takes hs c₁).bind ?_
  rintro ⟨init, c₂, h₂⟩ s₁ ⟨ts, us, hts, hplace, hvalue, hleads⟩
  have hsecond : c₁.kinds[1]? = some (.mark .assign) := by
    rw [Bool.and_eq_true, beq_iff_eq, Cursor.secondKind?_eq] at hstart
    exact hstart.2
  rw [hts, List.append_assoc, List.cons_append] at hsecond
  obtain ⟨counter, shape, htarget, rfl⟩ := eq_var_of_assignable hplace hsecond
  have hs₁ := hleads.sound
  refine .require
    (fun hnumeric => ⟨trivial, fun hb => ⟨⟨_, Input.peek_mem c₁, rfl⟩, nofun, nofun, ?_⟩⟩)
    fun hnumeric => ?_
  · rintro _ _ ⟨⟩
    exact hasString_of_assign htarget hleads hb hnumeric
  refine Looks.expect.next ?_
  rintro ⟨c₃, h₃⟩ hto
  refine (condition_takes hs₁ c₃).next ?_
  rintro ⟨bound, c₄, h₄⟩ ⟨vs, hvs, hbound, hfits, hboundNumeric⟩
  refine Looks.expect.next ?_
  rintro ⟨c₅, h₅⟩ hbreak
  have hagrees := hfits.agrees
  rw [hleads.env] at hagrees
  refine .pure ⟨counter, us, vs, by rw [htarget]; rfl, hvalue, hbound, ?_,
    ⟨hleads.agrees, ⟨counter, shape, htarget⟩, hnumeric, hagrees, hboundNumeric, trivial⟩,
    hleads.env, hs₁⟩
  simp [hword, hts, hto, hvs, hbreak]

theorem forTail_takes (counter : String) (c : Cursor input) :
    Looks input blames s (forTail counter c) fun d =>
      ∃ named, c.kinds = .keyword .next :: .name named :: d.val.kinds := by
  refine Looks.expect.bind ?_
  rintro ⟨c₁, h₁⟩ hword
  refine Looks.expectName.bind ?_
  rintro ⟨named, c₂, h₂⟩ ⟨hname, -⟩
  refine Reads.guard (fun _ => SourceError.explained_grammar (Input.peek_mem c₁) nofun)
    fun _ => Looks.pure ⟨named, ?_⟩
  rw [hword, hname]

/-! ### Statements with a body -/

/-- What is read as a conditional is derived as one, and leads where the reading ends. -/
def TakesConditional (blames : Prop) (s : Session) (scope : Scope) (c : Cursor input) : Prop :=
  Reads input blames s (conditional scope c) fun r s' => ∃ ts, c.kinds = ts ++ r.2.val.kinds ∧
    Conditional ts r.1.1.bare (bareAll r.1.2.1) r.1.2.2.bare ∧
      Leads input blames scope s (.ifThen r.1.1 r.1.2.1 r.1.2.2) s'

section

/-! A statement comes back to a statement with fewer tokens left, so again the functions are taken
one by one. -/

variable {n : Nat} (hstatement : ∀ (scope : Scope) (s : Session) (d : Cursor input), d.left < n →
  (blames → s.Sound input.all scope) → TakesStmt blames s scope d (statement scope d))

include hstatement

theorem block_takes {closers : List Keyword} {closer : Keyword} {s : Session}
    (hs : blames → s.Sound input.all scope) (c : Cursor input) (hc : c.left < n) :
    Reads input blames s (block scope closers closer c) fun r s' => ∃ m us,
      c.kinds = breaks m ++ us ++ r.2.val.kinds ∧ Block us (bareAll r.1) ∧
        Reached input blames scope (allAgree s.env scope r.1) (afterAll s.env scope r.1) s' := by
  obtain ⟨⟨m, hm⟩, -⟩ := c.kinds_skipNewlines
  rw [block]
  generalize c.skipNewlines = start at hm
  obtain ⟨c₁, h₁⟩ := start
  dsimp only at hm ⊢
  by_cases hclose : (closers.any fun k => c₁.peek.kind == .keyword k) = true
  · rw [if_pos hclose]
    exact .pure ⟨m, [], by simpa using hm, .nil, trivial, rfl, hs⟩
  · rw [if_neg hclose]
    refine .guard (fun _ => SourceError.explained_grammar (Input.peek_mem c₁) nofun) fun _ => ?_
    refine (hstatement scope s c₁ (by omega) hs).bind ?_
    rintro ⟨st, c₂, h₂⟩ s₁ ⟨ts, hts, hst, hleads⟩
    refine Looks.expect.next ?_
    rintro ⟨c₃, h₃⟩ hbreak
    have hlt : c₃.left < c₂.left := h₃
    refine (block_takes hleads.sound c₃ (by omega)).bind ?_
    rintro ⟨rest, c₄, h₄⟩ s₂ ⟨k, us, hus, hrest, hreached⟩
    rw [hleads.env] at hreached
    refine .pure ⟨m, _, ?_, .cons k hst hrest, ⟨hleads.agrees, hreached.agrees⟩, hreached.env,
      hreached.sound⟩
    simp [hm, hts, hbreak, hus, breaks_succ]
termination_by c.left

/-- A conditional is read if the rest of its chain is. -/
theorem arm_takes (hs : blames → s.Sound input.all scope) (c : Cursor input) (hc : c.left ≤ n)
    (hchain : ∀ (s : Session) (d : Cursor input), d.left < c.left →
      (blames → s.Sound input.all scope) →
      TakesConditional blames s scope d) : TakesConditional blames s scope c := by
  unfold TakesConditional
  rw [conditional]
  refine Looks.expect.next ?_
  rintro ⟨c₁, h₁⟩ hif
  refine (condition_takes hs c₁).next ?_
  rintro ⟨test, c₂, h₂⟩ ⟨ts, hts, htest, hfits, hnumeric⟩
  refine Looks.expect.next ?_
  rintro ⟨c₃, h₃⟩ hthen
  refine Looks.expect.next ?_
  rintro ⟨c₄, h₄⟩ hbreak
  refine (block_takes hstatement hs c₄ (by omega)).bind ?_
  rintro ⟨body, c₅, h₅⟩ s₁ ⟨m, us, hus, hbody, hall, henv, hs₁⟩
  cases hend : c₅.skip? (.keyword .endIf) with
  | some found =>
    obtain ⟨c₆, h₆⟩ := found
    simp only [hend]
    refine .pure ⟨_, ?_, .arm m htest hbody .none, ⟨hfits.agrees, hnumeric, hall, trivial⟩,
      henv, hs₁⟩
    simp [hif, hts, hthen, hbreak, hus, Cursor.kinds_of_skip? hend, breaks_succ]
  | none =>
    simp only [hend]
    refine Looks.expect.next ?_
    rintro ⟨c₆, h₆⟩ helse
    by_cases hnext : c₆.peek.kind = .keyword .ifWord
    · rw [if_pos hnext]
      refine (hchain s₁ c₆ (by omega) hs₁).bind ?_
      rintro ⟨⟨nextTest, nextBody, rest⟩, c₇, h₇⟩ s₂ ⟨vs, hvs, hrest, hleads⟩
      unfold Leads at hleads
      rw [henv] at hleads
      refine .pure ⟨_, ?_, .arm m htest hbody (.elseIf hrest),
        ⟨hfits.agrees, hnumeric, hall, hleads.agrees⟩, hleads.env, hleads.sound⟩
      simp [hif, hts, hthen, hbreak, hus, helse, hvs, breaks_succ]
    · rw [if_neg hnext]
      refine Looks.expect.next ?_
      rintro ⟨c₇, h₇⟩ hbreak'
      have hlt : c₇.left < c₆.left := h₇
      refine (block_takes hstatement hs₁ c₇ (by omega)).bind ?_
      rintro ⟨last, c₈, h₈⟩ s₂ ⟨k, vs, hvs, hlast, hreached⟩
      refine Looks.expect.next ?_
      rintro ⟨c₉, h₉⟩ hclose
      rw [henv] at hreached
      refine .pure ⟨_, ?_, .arm m htest hbody (.body k hlast),
        ⟨hfits.agrees, hnumeric, hall, hreached.agrees⟩, hreached.env, hreached.sound⟩
      simp [hif, hts, hthen, hbreak, hus, helse, hbreak', hvs, hclose, breaks_succ]

theorem conditional_takes {s : Session} (hs : blames → s.Sound input.all scope) (c : Cursor input)
    (hc : c.left ≤ n) : TakesConditional blames s scope c :=
  arm_takes hstatement hs c hc fun _ d _ hs' => conditional_takes hs' d (by omega)
termination_by c.left

variable (hs : blames → s.Sound input.all scope)

include hs

theorem declaration_finds (c : Cursor input) (hc : c.left ≤ n) :
    FindsStmt blames s scope c (declaration scope c) := by
  unfold FindsStmt
  rw [declaration]
  by_cases hsub : (c.secondKind? == some (.keyword .subroutine)) = true
  · rw [if_pos hsub]
    refine (subroutineHead_takes hs c).bind ?_
    rintro ⟨⟨ty, name, all⟩, c₁, h₁⟩ s₁ ⟨k, ts, hty, hparams, hts, hhead⟩
    obtain rfl := hhead.agrees
    refine (block_takes hstatement hhead.sound c₁ (by omega)).bind ?_
    rintro ⟨body, c₂, h₂⟩ s₂ ⟨m, us, hus, hbody, hreached⟩
    refine Looks.expect.next ?_
    rintro ⟨c₃, h₃⟩ hclose
    rw [hhead.env] at hreached
    refine .pure ⟨_, ?_, .subroutine name m hty hparams hbody, fun line =>
      ⟨⟨rfl, isNumeric_of_typeName hty, isNumeric_of_params hparams, hreached.agrees⟩, hreached.env,
        fun hb => ?_⟩⟩
    · simp [hts, hus, hclose, breaks_succ]
    · have hsound := hreached.sound hb
      exact ⟨scope_push s₂ _, hsound.resolved, hsound.strings, hsound.returns⟩
  · rw [if_neg hsub]
    exact arrayDeclaration_finds hs c

theorem whileStatement_finds (c : Cursor input) (hc : c.left ≤ n) :
    FindsStmt blames s scope c (whileStatement scope c) := by
  unfold FindsStmt
  rw [whileStatement]
  refine Looks.expect.next ?_
  rintro ⟨c₁, h₁⟩ hwhile
  refine (condition_takes hs c₁).next ?_
  rintro ⟨test, c₂, h₂⟩ ⟨ts, hts, htest, hfits, hnumeric⟩
  refine Looks.expect.next ?_
  rintro ⟨c₃, h₃⟩ hdo
  refine Looks.expect.next ?_
  rintro ⟨c₄, h₄⟩ hbreak
  refine (block_takes hstatement hs c₄ (by omega)).bind ?_
  rintro ⟨body, c₅, h₅⟩ s₁ ⟨m, us, hus, hbody, hall, henv, hs₁⟩
  refine Looks.expect.next ?_
  rintro ⟨c₆, h₆⟩ hclose
  refine .pure
    ⟨_, ?_, .whileLoop m htest hbody, Reached.told ⟨⟨hfits.agrees, hnumeric, hall⟩, henv, hs₁⟩
    (by simp [Stmt.label])⟩
  simp [hwhile, hts, hdo, hbreak, hus, hclose, breaks_succ]

theorem forStatement_finds (c : Cursor input) (hc : c.left ≤ n) :
    FindsStmt blames s scope c (forStatement scope c) := by
  unfold FindsStmt
  rw [forStatement]
  refine (forHead_takes hs c).bind ?_
  rintro ⟨⟨init, bound⟩, c₁, h₁⟩ s₁ ⟨counter, us, vs, htarget, hvalue, hbound, hts, hhead⟩
  refine (block_takes hstatement hhead.sound c₁ (by omega)).bind ?_
  rintro ⟨body, c₂, h₂⟩ s₂ ⟨m, ws, hws, hbody, hreached⟩
  refine (forTail_takes _ c₂).next ?_
  rintro ⟨c₃, h₃⟩ ⟨named, hnext⟩
  obtain ⟨hinit, hvar, hnumeric, hboundAgrees, hboundNumeric, -⟩ := hhead.agrees
  rw [hhead.env] at hreached
  have hloop := Statement.forLoop counter named m hvalue hbound hbody
  rw [← htarget] at hloop
  refine .pure
    ⟨_, ?_, hloop,
      Reached.told ⟨⟨hinit, hvar, hnumeric, hboundAgrees, hboundNumeric, hreached.agrees⟩,
    hreached.env, hreached.sound⟩ (by simp [Stmt.label])⟩
  simp [hts, hws, hnext, breaks_succ]

theorem anyStatement_takes (c : Cursor input) (hc : c.left ≤ n) :
    TakesStmt blames s scope c (statement scope c) := by
  rw [statement]
  split
  · refine Reads.bind (conditional_takes hstatement hs c hc) ?_
    rintro ⟨⟨test, body, rest⟩, c₁⟩ s₁ ⟨ts, hts, harm, hagrees, henv, hs₁⟩
    exact reads_told
      (.pure ⟨ts, hts, .ifThen harm, Reached.told ⟨hagrees, henv, hs₁⟩ (by simp [Stmt.label]) _⟩)
  · exact (whileStatement_finds hstatement hs c hc).told
  · exact (forStatement_finds hstatement hs c hc).told
  · exact (declaration_finds hstatement hs c hc).told
  · exact (declaration_finds hstatement hs c hc).told
  · exact (returnStatement_finds hs c).told
  · exact (outputStatement_finds hs c).told
  · exact (inputStatement_finds hs c).told
  · by_cases hassign : c.atAssignment = true
    · rw [if_pos hassign]
      refine (assignment_takes hs c).bind ?_
      rintro ⟨a, c₁⟩ s₁ ⟨us, vs, hts, hplace, hvalue, hleads⟩
      exact reads_told
        (.pure ⟨_, hts, .assign hplace hvalue, Reached.told hleads (by simp [Stmt.label]) _⟩)
    · rw [if_neg hassign]
      exact (expressionStatement_finds hs c).told
  · exact (expressionStatement_finds hs c).told

end

/-- **A statement that is read is derived from its tokens and agrees with the environment before
it**, or is rejected for a reason. -/
theorem statement_takes {s : Session} {scope : Scope} (hs : blames → s.Sound input.all scope)
    (c : Cursor input) : TakesStmt blames s scope c (statement scope c) :=
  anyStatement_takes (fun _ _ d _ hs' => statement_takes hs' d) hs c (Nat.le_refl _)
termination_by c.left

theorem statements_reads {s : Session} (hs : blames → s.Sound input.all .top) (c : Cursor input) :
    Reads input blames s (statements c) fun p s' => Phrase.Program c.kinds (bareAll p) ∧
      Reached input blames .top (allAgree s.env .top p) (afterAll s.env .top p) s' := by
  obtain ⟨⟨m, hm⟩, -⟩ := c.kinds_skipNewlines
  rw [statements]
  generalize c.skipNewlines = start at hm
  obtain ⟨c₁, h₁⟩ := start
  dsimp only at hm ⊢
  by_cases hend : c₁.atEnd = true
  · rw [if_pos hend]
    refine .pure ⟨?_, trivial, rfl, hs⟩
    rw [hm, Cursor.atEnd_iff.1 hend]
    exact .empty m 0
  · rw [if_neg hend]
    refine (statement_takes hs c₁).bind ?_
    rintro ⟨st, c₂, h₂⟩ s₁ ⟨ts, hts, hst, hagrees, henv, hs₁⟩
    dsimp only at hts hst ⊢
    by_cases hlast : c₂.atEnd = true
    · rw [if_pos hlast]
      refine .pure ⟨?_, ⟨hagrees, trivial⟩, henv, hs₁⟩
      rw [hm, hts, Cursor.atEnd_iff.1 hlast, ← List.append_assoc]
      exact .lines m 0 (.one hst)
    · rw [if_neg hlast]
      refine Looks.expect.next ?_
      rintro ⟨c₃, h₃⟩ hbreak
      have hlt : c₃.left < c₂.left := h₃
      refine (statements_reads hs₁ c₃).bind ?_
      rintro rest s₂ ⟨hrest, hreached⟩
      rw [henv] at hreached
      refine .pure ⟨?_, ⟨hagrees, hreached.agrees⟩, hreached.env, hreached.sound⟩
      rw [hm, hts, hbreak]
      exact hrest.after_statement m hst
termination_by c.left

theorem statements_takes {s : Session} (hs : blames → s.Sound input.all .top) (c : Cursor input) :
    Outcomes (· = s) (statements c) (fun p s' => Phrase.Program c.kinds (bareAll p) ∧
      Reached input blames .top (allAgree s.env .top p) (afterAll s.env .top p) s')
      fun e s' => blames → e.Justified input.all s' :=
  Outcomes.mono (statements_reads hs c) (fun _ => id) (fun _ _ => id) fun _ _ h => h.justified

/-- **What is read is derived, and agrees with the environment before it**, whatever the session. -/
theorem statements_run {p : Program} (h : Runs (statements c) s p s') :
    Phrase.Program c.kinds (bareAll p) ∧ allAgree s.env .top p ∧
    s'.env = afterAll s.env .top p := by
  have hsound : False → s.Sound input.all .top := False.elim
  obtain ⟨hprogram, hagree, henv, -⟩ := (statements_reads hsound c).of_runs h
  exact ⟨hprogram, hagree, henv⟩

end Grammar

variable {tokens : List Token} {p : Program}

theorem runs_of_parse (h : parse tokens = .ok p) :
    Runs (Grammar.statements (.start (.ofTokens tokens))) {} p (analyze tokens).2 :=
  Prod.ext h rfl

/-- **A program that is read agrees with the empty environment.** -/
theorem allAgree_of_parse (h : parse tokens = .ok p) : allAgree {} .top p :=
  (Grammar.statements_run (runs_of_parse h)).2.1

/-- **A program that is read is derived from its tokens.** -/
theorem program_of_parse (h : parse tokens = .ok p) :
    Phrase.Program (Cursor.start (.ofTokens tokens)).kinds (bareAll p) :=
  (Grammar.statements_run (runs_of_parse h)).1

end Pseudocode
