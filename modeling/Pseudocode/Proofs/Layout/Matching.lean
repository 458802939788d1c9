import Pseudocode.Proofs.Grammar.Reading

/-!
Two readings side by side.

The same tokens may be read in two inputs, where they stand at other places, with other line breaks
between them, or with other tokens behind them.  A `Pairing` says which places of the two inputs go
together, and which errors do.

`InStep` says of two readings that both go on, with results that are related and the same names
bound, or that the first one fails and the second one does so with an error that goes with it.
There is one place where they may part for a while: the last line break may be missing in one of
them.  There one of the readings rejects the program at once, and the other one when it finds that
the input has ended (`Rejects`); `InStepUpTo` allows that.
-/

namespace Pseudocode

variable {p q : Prop} {symbol : Symbol} {kind : Kind} {line line' : Nat}

/-! ### Further down -/

/-- The place so many lines further down. -/
def Position.down (n : Nat) (p : Position) : Position :=
  ⟨p.line + n, p.column⟩

/-- The same token so many lines further down. -/
def Token.down (n : Nat) (t : Token) : Token :=
  { t with toPosition := t.toPosition.down n }

/-- The same fault so many lines further down. -/
def SyntaxFault.down (n : Nat) : SyntaxFault → SyntaxFault
  | .expected what found => .expected what (found.down n)
  | fault => fault

/-- The same error so many lines further down. -/
def SourceError.down (n : Nat) : SourceError → SourceError
  | .grammar p fault => .grammar (p.down n) (fault.down n)
  | .undefinedVariable name line => .undefinedVariable name (line + n)
  | .undefinedSubroutine name line => .undefinedSubroutine name (line + n)
  | .typeMismatch line fault => .typeMismatch (line + n) fault

@[simp] theorem Token.kind_down (n : Nat) (t : Token) : (t.down n).kind = t.kind := rfl

@[simp] theorem Token.line_down (n : Nat) (t : Token) : (t.down n).line = t.line + n := rfl

theorem SourceError.down_add (e : SourceError) (m n : Nat) :
    e.down (m + n) = (e.down m).down n := by
  have hposition : ∀ p : Position, p.down (m + n) = (p.down m).down n := fun p => by
    simp [Position.down, Nat.add_assoc]
  cases e with
  | grammar p fault =>
    cases fault <;> simp [SourceError.down, SyntaxFault.down, Token.down, hposition]
  | _ => simp [SourceError.down, Nat.add_assoc]

/-! ### Checks -/

/-- The check looks at the line only to blame it. -/
def BlamesLine {α : Type} (f : Nat → Except SourceError α) : Prop :=
  ∀ line n, f (line + n) = (f line).mapError (SourceError.down n)

namespace BlamesLine

variable {α β : Type}

theorem bind {f : Nat → Except SourceError α} {g : α → Nat → Except SourceError β}
    (hf : BlamesLine f)
    (hg : ∀ a, BlamesLine (g a)) : BlamesLine fun line => f line >>= fun a => g a line := by
  intro line n
  dsimp only
  rw [hf line n]
  cases f line with
  | error e => rfl
  | ok a => exact hg a line n

theorem pure (a : α) : BlamesLine fun _ => Pure.pure a :=
  fun _ _ => rfl

theorem mismatch (fault : TypeFault) :
    BlamesLine fun line => (throw (.typeMismatch line fault) : Except SourceError α) :=
  fun _ _ => rfl

theorem refused (fault : TypeFault) (g : Nat → β → Except SourceError α) :
    BlamesLine fun line => throw (.typeMismatch line fault) >>= g line :=
  fun _ _ => rfl

theorem ite [Decidable p] {f g : Nat → Except SourceError α} (hf : BlamesLine f)
    (hg : BlamesLine g) : BlamesLine fun line => if p then f line else g line := by
  intro line n
  by_cases hp : p
  · simp only [if_pos hp]
    exact hf line n
  · simp only [if_neg hp]
    exact hg line n

end BlamesLine

namespace Expr

variable (e lhs rhs : Expr)

theorem blamesLine_requireResolved : BlamesLine e.requireResolved :=
  .ite (.pure ()) fun _ _ => rfl

theorem blamesLine_requireNumeric (position : String) : BlamesLine (e.requireNumeric position) :=
  e.blamesLine_requireResolved.bind fun _ => .ite (.mismatch _) (.pure ())

theorem blamesLine_negated : BlamesLine e.negated :=
  e.blamesLine_requireResolved.bind fun _ => .ite (.refused _ _) (.pure _)

theorem blamesLine_combine (op : BinaryOp) : BlamesLine (lhs.combine op rhs) := by
  refine lhs.blamesLine_requireResolved.bind fun _ => rhs.blamesLine_requireResolved.bind
    fun _ => ?_
  refine .ite (.refused _ _) (.ite (.ite (.pure _) (.refused _ _)) ?_)
  cases Ty.promote? lhs.ty rhs.ty with
  | some ty => exact .pure _
  | none => exact .mismatch _

end Expr

namespace Environment

variable (env : Environment)

theorem blamesLine_readElement (symbol : Symbol) (index : Expr) :
    BlamesLine (env.readElement symbol index) :=
  (index.blamesLine_requireNumeric _).bind fun _ => .pure _

theorem blamesLine_forM (position : String) (args : List Expr) :
    BlamesLine fun line => args.forM fun arg => arg.requireNumeric position line := by
  induction args with
  | nil => exact .pure _
  | cons arg args ih => exact (arg.blamesLine_requireNumeric position).bind fun _ => ih

theorem blamesLine_call (name : String) (args : List Expr) : BlamesLine (env.call name args) := by
  unfold call
  cases env.returnTy? name with
  | none => exact fun _ _ => rfl
  | some ty => exact (blamesLine_forM _ args).bind fun _ => .pure _

end Environment

/-! ### Names that are bound in the same way -/

/-- Names are bound in the same way in all scopes that are shared, and the same subroutines are
declared. -/
structure Environment.Shared (Shares : Scope → Prop) (env env' : Environment) : Prop where
  shape : ∀ symbol : Symbol, Shares symbol.scope → env'.shape symbol = env.shape symbol
  contains : ∀ symbol : Symbol, Shares symbol.scope → env'.contains symbol = env.contains symbol
  returns : ∀ name, env'.returnTy? name = env.returnTy? name

namespace Environment.Shared

variable {Shares : Scope → Prop} {env env' : Environment}

theorem bind (h : env.Shared Shares env') (symbol : Symbol) (shape : Shape) :
    (env.bind symbol shape).Shared Shares (env'.bind symbol shape) := by
  refine ⟨fun other hother => ?_, fun other hother => ?_, h.returns⟩
  · rw [shape_bind, shape_bind, h.shape other hother]
  · rw [contains_bind, contains_bind, h.contains other hother]

theorem register (h : env.Shared Shares env') (name : String) (ty : Ty) :
    (env.register name ty).Shared Shares (env'.register name ty) := by
  refine ⟨h.shape, h.contains, fun other => ?_⟩
  rw [returnTy?_register, returnTy?_register, h.returns]

theorem readVar (h : env.Shared Shares env') (hscope : Shares symbol.scope) :
    env'.readVar symbol = env.readVar symbol := by
  unfold Environment.readVar
  rw [h.shape symbol hscope]

theorem readElement (h : env.Shared Shares env') (hscope : Shares symbol.scope) :
    env'.readElement symbol = env.readElement symbol := by
  funext index line
  unfold Environment.readElement
  rw [h.shape symbol hscope]

theorem call (h : env.Shared Shares env') (name : String) : env'.call name = env.call name := by
  funext args line
  unfold Environment.call
  rw [h.returns name]

end Environment.Shared

/-! ### Where a line has ended -/

namespace Cursor

variable {input : Input} {c : Cursor input}

/-- The line of the cursor has ended. -/
def AtBreak (c : Cursor input) : Prop :=
  ∀ k ks, c.kinds = k :: ks → k = .newline

/-- Nothing that is not a line break is found where a line has ended. -/
theorem AtBreak.step? {α : Type} {test : Token → Option α} (h : c.AtBreak)
    (htest : ∀ t : Token, t.kind = .newline → test t = none) : c.step? test = none := by
  cases hkinds : c.kinds with
  | nil => exact step?_of_nil hkinds
  | cons k ks =>
    obtain ⟨c₁, hpeek, -, hstep⟩ := step?_of_kinds hkinds
    rw [hstep, htest _ (hpeek.trans (h k ks hkinds))]
    rfl

theorem AtBreak.skip? (h : c.AtBreak) (hkind : kind ≠ .newline) : c.skip? kind = none := by
  unfold Cursor.skip?
  rw [h.step? fun t ht => if_neg fun heq => hkind (heq.symm.trans ht)]
  rfl

theorem AtBreak.peek (h : c.AtBreak) (hstop : input.stop.kind = .eof) :
    c.peek.kind = .newline ∨ c.peek.kind = .eof := by
  cases hkinds : c.kinds with
  | nil =>
    rw [kind_peek, hkinds]
    exact .inr hstop
  | cons k ks =>
    rw [kind_of_kinds hkinds]
    exact .inl (h k ks hkinds)

theorem AtBreak.atName (h : c.AtBreak) (hstop : input.stop.kind = .eof) : c.atName = false := by
  unfold Cursor.atName
  rcases h.peek hstop with hpeek | hpeek
  · rw [hpeek]
  · rw [hpeek]

theorem AtBreak.closesBeforeAssign (h : c.AtBreak) (depth : Nat) :
    c.closesBeforeAssign depth = false := by
  rw [Cursor.closesBeforeAssign]
  cases hkinds : c.kinds with
  | nil => rw [step?_of_nil hkinds]
  | cons k ks =>
    obtain ⟨c₁, hpeek, -, hstep⟩ := step?_of_kinds hkinds
    rw [hstep, hpeek, h k ks hkinds]
    rfl

/-- There is nothing but line breaks in front of the cursor. -/
structure Spent (c : Cursor input) : Prop where
  kinds : ∀ k ∈ c.kinds, k = .newline
  stop : input.stop.kind = .eof

theorem Spent.skipNewlines (h : c.Spent) : c.skipNewlines.val.kinds = [] := by
  obtain ⟨⟨m, hm⟩, hhead⟩ := c.kinds_skipNewlines
  cases hrest : c.skipNewlines.val.kinds with
  | nil => rfl
  | cons k ks =>
    obtain rfl := h.kinds k (by simp [hm, hrest])
    rw [hrest] at hhead
    exact absurd rfl hhead

end Cursor

/-! ### Readings in step -/

/-- Any two departures from the grammar go together. -/
def Sloppy (Blames : SourceError → SourceError → Prop) : Prop :=
  ∀ e e' : SourceError, e.IsGrammar → e'.IsGrammar → Blames e e'

/-- Which places and which errors of two inputs go together. -/
structure Pairing (input input' : Input) where
  /-- The scopes whose names are bound in the same way. -/
  Shares : Scope → Prop
  subroutines : ∀ name, Shares (.subroutine name)
  Lines : Nat → Nat → Prop
  Blames : SourceError → SourceError → Prop
  /-- Nothing is said of the second reading where the first one fails. -/
  Apart : Prop
  /-- The cursors have the same in front of them. -/
  Beside : Cursor input → Cursor input' → Prop
  /-- The cursors are behind a line break, and have the same in front of them up to more of
  these. -/
  Behind : Cursor input → Cursor input' → Prop
  stop : input.stop.kind = .eof
  stop' : input'.stop.kind = .eof
  /-- Errors that only differ in the line go together if the lines do. -/
  blames_line :
    ∀ {E : Nat → SourceError} {line line' : Nat}, (∀ line n, E (line + n) = (E line).down n) →
    Lines line line' → Blames (E line) (E line')
  /-- Errors that only differ in the token go together if the tokens do. -/
  blames_token : ∀ {F : Token → SyntaxFault} {c : Cursor input} {d : Cursor input'},
    (∀ t n, F (t.down n) = (F t).down n) → Beside c d →
      Blames (.grammar c.peek.toPosition (F c.peek)) (.grammar d.peek.toPosition (F d.peek))
  lines : ∀ {c : Cursor input} {d : Cursor input'}, Beside c d → Lines c.peek.line d.peek.line
  /-- The same token stands before both cursors, or the line of both has ended. -/
  begins : ∀ {c : Cursor input} {d : Cursor input'}, Beside c d →
    (∃ t ts u us, c.rest = t :: ts ∧ d.rest = u :: us ∧
    t.kind ≠ .newline ∧ u.kind = t.kind ∧ ∀ {c₁ d₁}, c₁.rest = ts → d₁.rest = us → Beside c₁ d₁) ∨
      c.AtBreak ∧ d.AtBreak
  /-- A line break stands before both cursors or before none, unless one of the inputs has ended. -/
  breaks : ∀ {c : Cursor input} {d : Cursor input'}, Beside c d →
    (c.skip? .newline = none ∧ d.skip? .newline = none) ∨
    (∃ c₁ d₁, c.skip? .newline = some c₁ ∧ d.skip? .newline = some d₁ ∧ Behind c₁.val d₁.val) ∨
    (c.skip? .newline = none ∧ Apart) ∨
    (∃ d₁, c.skip? .newline = none ∧ d.skip? .newline = some d₁ ∧ d₁.val.Spent ∧ Sloppy Blames) ∨
    ∃ c₁, c.skip? .newline = some c₁ ∧ d.skip? .newline = none ∧ c₁.val.Spent ∧ Sloppy Blames
  /-- All line breaks are stepped over. -/
  skips : ∀ {c : Cursor input} {d : Cursor input'}, Behind c d →
    (Beside c.skipNewlines.val d.skipNewlines.val ∧
      c.skipNewlines.val.atEnd = d.skipNewlines.val.atEnd) ∨ c.skipNewlines.val.kinds = [] ∧ Apart

variable {input input' : Input} {k : Pairing input input'}

section

variable {α β γ δ : Type} {φ : α → β → Prop} {χ : α → Prop} {ψ : β → Prop} {m : Analysis α}
  {n : Analysis β}

/-- Two outcomes that agree, or of which one is a departure from the grammar where the other one may
still go on. -/
inductive Agree (k : Pairing input input') (φ : α → β → Prop) (χ : α → Prop) (ψ : β → Prop) :
    Except SourceError α × Session → Except SourceError β × Session → Prop where
  | both {a b s t} : φ a b → s.env.Shared k.Shares t.env → Agree k φ χ ψ (.ok a, s) (.ok b, t)
  | neither {e e' s t} : k.Blames e e' → Agree k φ χ ψ (.error e, s) (.error e', t)
  | apart {e s x} : k.Apart → Agree k φ χ ψ (.error e, s) x
  | left {a e s t} : χ a → (∀ e' : SourceError, e'.IsGrammar → k.Blames e' e) →
    Agree k φ χ ψ (.ok a, s) (.error e, t)
  | right {b e s t} : ψ b → (∀ e' : SourceError, e'.IsGrammar → k.Blames e e') →
    Agree k φ χ ψ (.error e, s) (.ok b, t)

/-- The readings agree, except that one may reject the program where the other one has given
something like `χ` or `ψ`. -/
def InStepUpTo (k : Pairing input input') (φ : α → β → Prop) (χ : α → Prop) (ψ : β → Prop)
    (m : Analysis α) (n : Analysis β) : Prop :=
  ∀ s t : Session, s.env.Shared k.Shares t.env → Agree k φ χ ψ (outcome m s) (outcome n t)

/-- Whatever the first reading does, the second one does too. -/
def InStep (k : Pairing input input') (φ : α → β → Prop) (m : Analysis α) (n : Analysis β) : Prop :=
  InStepUpTo k φ (fun _ => False) (fun _ => False) m n

/-- The program is rejected as a departure from the grammar. -/
def Rejects (m : Analysis α) : Prop :=
  Ends SourceError.IsGrammar m fun _ => False

theorem Rejects.bind (h : Rejects m) (f : α → Analysis β) : Rejects (m >>= f) :=
  Ends.bind h fun _ hfalse => hfalse.elim

theorem Rejects.outcome (h : Rejects m) (s : Session) : ∃ e s', outcome m s = (.error e, s') ∧
    e.IsGrammar := by
  obtain ⟨hruns, hfails⟩ := h s trivial
  rcases hm : Pseudocode.outcome m s with ⟨r, s'⟩
  cases r with
  | ok a => exact (hruns a s' hm).elim
  | error e => exact ⟨e, s', rfl, hfails e (by rw [Fails, hm])⟩

namespace InStepUpTo

variable {f : α → Analysis γ} {g : β → Analysis δ} {θ : γ → δ → Prop} {χ' : γ → Prop}
  {ψ' : δ → Prop}

theorem bind (hm : InStepUpTo k φ χ ψ m n) (hf : ∀ a b, φ a b → InStepUpTo k θ χ' ψ' (f a) (g b))
    (hχ : ∀ a, χ a → Rejects (f a)) (hψ : ∀ b, ψ b → Rejects (g b)) :
    InStepUpTo k θ χ' ψ' (m >>= f) (n >>= g) := by
  intro s t hst
  rw [outcome_bind, outcome_bind]
  have hfirst := hm s t hst
  generalize outcome m s = x at hfirst
  generalize outcome n t = y at hfirst
  cases hfirst with
  | both hab henv => exact hf _ _ hab _ _ henv
  | neither h => exact .neither h
  | apart h => exact .apart h
  | @left a _ s₁ _ ha he =>
    obtain ⟨e', s', hout, he'⟩ := (hχ a ha).outcome s₁
    dsimp only
    rw [hout]
    exact .neither (he e' he')
  | @right b _ _ t₁ hb he =>
    obtain ⟨e', t', hout, he'⟩ := (hψ b hb).outcome t₁
    dsimp only
    rw [hout]
    exact .neither (he e' he')

/-- Readings that have parted give back what they have read. -/
theorem give (hm : InStepUpTo k φ χ ψ m n) (hf : ∀ a b, φ a b → InStepUpTo k θ χ' ψ' (f a) (g b))
    (hχ : ∀ a, χ a → ∃ x, f a = Pure.pure x ∧ χ' x)
    (hψ : ∀ b, ψ b → ∃ y, g b = Pure.pure y ∧ ψ' y) : InStepUpTo k θ χ' ψ' (m >>= f) (n >>= g) := by
  intro s t hst
  rw [outcome_bind, outcome_bind]
  have hfirst := hm s t hst
  generalize outcome m s = x at hfirst
  generalize outcome n t = y at hfirst
  cases hfirst with
  | both hab henv => exact hf _ _ hab _ _ henv
  | neither h => exact .neither h
  | apart h => exact .apart h
  | left ha he =>
    obtain ⟨x, hx, hχ'⟩ := hχ _ ha
    dsimp only
    rw [hx]
    exact .left hχ' he
  | right hb he =>
    obtain ⟨y, hy, hψ'⟩ := hψ _ hb
    dsimp only
    rw [hy]
    exact .right hψ' he

theorem pure {a : α} {b : β} (h : φ a b) :
    InStepUpTo k φ χ ψ (Pure.pure a : Analysis α) (Pure.pure b : Analysis β) :=
  fun _ _ hst => .both h hst

theorem throw {e e' : SourceError} (h : k.Blames e e') :
    InStepUpTo k φ χ ψ (MonadExcept.throw e : Analysis α) (MonadExcept.throw e' : Analysis β) :=
  fun _ _ _ => .neither h

theorem guard [Decidable p] [Decidable q] {e e' : SourceError} {f : γ → Analysis α}
    {g : δ → Analysis β} (hpq : p ↔ q) (he : k.Blames e e') (h : ¬ p → InStepUpTo k φ χ ψ m n) :
    InStepUpTo k φ χ ψ (if p then (MonadExcept.throw e : Analysis γ) >>= f else m)
      (if q then (MonadExcept.throw e' : Analysis δ) >>= g else n) := by
  by_cases hp : p
  · rw [if_pos hp, if_pos (hpq.1 hp)]
    exact fun _ _ _ => .neither he
  · rw [if_neg hp, if_neg fun hq => hp (hpq.2 hq)]
    exact h hp

theorem require [Decidable p] [Decidable q] {e e' : SourceError} {f : γ → Analysis α}
    {g : δ → Analysis β} (hpq : p ↔ q) (he : k.Blames e e') (h : InStepUpTo k φ χ ψ m n) :
    InStepUpTo k φ χ ψ (if p then m else (MonadExcept.throw e : Analysis γ) >>= f)
      (if q then n else (MonadExcept.throw e' : Analysis δ) >>= g) := by
  rw [← ite_not p, ← ite_not q]
  exact guard (not_congr hpq) he fun _ => h

/-- A reading that fails goes with any other, where nothing is said of it. -/
theorem of_fails {e : SourceError} (h : ∀ s, (outcome m s).1 = .error e) (hapart : k.Apart) :
    InStepUpTo k φ χ ψ m n := by
  intro s t _
  have herror := h s
  generalize outcome m s = x at herror
  obtain ⟨r, s₁⟩ := x
  obtain rfl := herror
  exact .apart hapart

end InStepUpTo

namespace InStep

theorem bind {f : α → Analysis γ} {g : β → Analysis δ} {θ : γ → δ → Prop} {χ' : γ → Prop}
    {ψ' : δ → Prop} (hm : InStep k φ m n) (hf : ∀ a b, φ a b → InStepUpTo k θ χ' ψ' (f a) (g b)) :
    InStepUpTo k θ χ' ψ' (m >>= f) (n >>= g) :=
  InStepUpTo.bind hm hf (fun _ h => h.elim) fun _ h => h.elim

theorem and_left (h : InStep k φ m n) {Q : α → Prop} (hm : ∀ s a s', Runs m s a s' → Q a) :
    InStep k (fun a b => φ a b ∧ Q a) m n := by
  intro s t hst
  have hboth := h s t hst
  have hends := hm s
  unfold Runs at hends
  generalize outcome m s = x at hboth hends ⊢
  generalize outcome n t = y at hboth ⊢
  cases hboth with
  | both hab henv => exact .both ⟨hab, hends _ _ rfl⟩ henv
  | neither he => exact .neither he
  | apart h => exact .apart h
  | left hfalse _ => exact hfalse.elim
  | right hfalse _ => exact hfalse.elim

/-- What the first reading gives, the second one gives too. -/
theorem runs (h : InStep k φ m n) {s s' t : Session} {a : α} (hst : s.env.Shared k.Shares t.env)
    (hrun : Runs m s a s') : ∃ b t', Runs n t b t' ∧ φ a b ∧ s'.env.Shared k.Shares t'.env := by
  have hboth := h s t hst
  rw [hrun] at hboth
  generalize hn : outcome n t = y at hboth
  cases hboth with
  | both hab henv => exact ⟨_, _, hn, hab, henv⟩
  | left hfalse _ => exact hfalse.elim

end InStep

end

/-! ### Steps that read no token -/

namespace Analysis

variable {α : Type}

theorem inStep_check {f : Nat → Except SourceError α} (hf : BlamesLine f)
    (hline : k.Lines line line') : InStep k (· = ·) (check (f line)) (check (f line')) := by
  have hfirst := hf 0 line
  have hsecond := hf 0 line'
  rw [Nat.zero_add] at hfirst hsecond
  rw [hfirst, hsecond]
  cases f 0 with
  | ok a => exact .pure rfl
  | error e => exact .throw (k.blames_line (E := fun line => e.down line) e.down_add hline)

theorem inStep_tell (e e' : Event) : InStep k (fun _ _ => True) (tell e) (tell e') :=
  fun _ _ hst => .both trivial hst

theorem inStep_env : InStep k (Environment.Shared k.Shares) env env :=
  fun _ _ hst => .both hst hst

theorem inStep_bindSymbol (symbol : Symbol) (shape : Shape) :
    InStep k (fun _ _ => True) (bindSymbol symbol shape) (bindSymbol symbol shape) :=
  (inStep_tell _ _).bind fun _ _ _ _ _ hst => .both trivial (hst.bind symbol shape)

theorem inStep_register (name : String) (ty : Ty) :
    InStep k (fun _ _ => True) (register name ty) (register name ty) :=
  (inStep_tell _ _).bind fun _ _ _ _ _ hst => .both trivial (hst.register name ty)

theorem inStep_bindParams (name : String) (all : List Param) : InStep k (fun _ _ => True)
    (forM all fun p => bindSymbol ⟨p.name, .subroutine name⟩ ⟨p.ty, 0⟩)
    (forM all fun p => bindSymbol ⟨p.name, .subroutine name⟩ ⟨p.ty, 0⟩) := by
  induction all with
  | nil => exact .pure trivial
  | cons p all ih => exact (inStep_bindSymbol _ _).bind fun _ _ _ => ih

theorem inStep_requireBound (hscope : k.Shares symbol.scope) (hline : k.Lines line line') :
    InStep k (fun _ _ => True) (Grammar.requireBound symbol line)
    (Grammar.requireBound symbol line') := by
  refine inStep_env.bind fun env env' henv => ?_
  rw [henv.contains symbol hscope]
  by_cases hbound : env.contains symbol = true
  · simp only [hbound, if_true]
    exact .pure trivial
  · simp only [hbound]
    exact .throw (k.blames_line (E := fun line => .undefinedVariable symbol.name line)
      (fun _ _ => rfl) hline)

/-- What is told to the log does not change how the readings go on. -/
theorem inStep_told {γ δ : Type} {m : Analysis (Stmt × γ)} {n : Analysis (Stmt × δ)}
    {R : Stmt × γ → Stmt × δ → Prop} (hm : InStep k R m n) :
    InStep k R (m >>= fun read => do
      tell (.reduced read.1.label line)
      return (read.1, read.2)) (n >>= fun read => do
      tell (.reduced read.1.label line')
      return (read.1, read.2)) :=
  hm.bind fun _ _ hread => (inStep_tell _ _).bind fun _ _ _ => .pure hread

end Analysis

/-! ### Cursors that go together -/

namespace Pairing

variable {c : Cursor input} {d : Cursor input'}

/-- Two results that are the same, with cursors that go together. -/
def Alongside (k : Pairing input input') {α : Type} {P : Cursor input → Prop}
    {P' : Cursor input' → Prop}
    (r : α × { c : Cursor input // P c }) (r' : α × { d : Cursor input' // P' d }) : Prop :=
  r.1 = r'.1 ∧ k.Beside r.2.val r'.2.val

namespace Beside

/-- Both cursors step over the same token, or the line of both has ended. -/
theorem cases (h : k.Beside c d) : (∃ (kind : Kind) (c₁ : c.After) (d₁ : d.After), kind ≠ .newline ∧
    c.kinds = kind :: c₁.val.kinds ∧ d.kinds = kind :: d₁.val.kinds ∧ k.Beside c₁.val d₁.val ∧
    (∀ {α : Type} (test : Token → Option α), c.step? test = (test c.peek).map (·, c₁)) ∧
      ∀ {α : Type} (test : Token → Option α), d.step? test = (test d.peek).map (·, d₁)) ∨
    c.AtBreak ∧ d.AtBreak := by
  rcases k.begins h with ⟨t, ts, u, us, hc, hd, hkind, hsame, hnext⟩ | hbreak
  · obtain ⟨c₁, -, hc₁, hcstep⟩ := Cursor.step?_of_rest hc
    obtain ⟨d₁, -, hd₁, hdstep⟩ := Cursor.step?_of_rest hd
    refine .inl ⟨t.kind, c₁, d₁, hkind, ?_, ?_, hnext hc₁ hd₁, hcstep, hdstep⟩
    · rw [Cursor.kinds, hc, Cursor.kinds, hc₁, List.map_cons]
    · rw [Cursor.kinds, hd, Cursor.kinds, hd₁, List.map_cons, hsame]
  · exact .inr hbreak

theorem skip? (h : k.Beside c d) (kind : Kind) (hkind : kind ≠ .newline) :
    (c.skip? kind = none ∧ d.skip? kind = none) ∨
      ∃ c₁ d₁, c.skip? kind = some c₁ ∧ d.skip? kind = some d₁ ∧ k.Beside c₁.val d₁.val := by
  rcases h.cases with ⟨found, c₁, d₁, -, hc, hd, hnext, hcstep, hdstep⟩ | ⟨hc, hd⟩
  · unfold Cursor.skip?
    rw [hcstep, hdstep, Cursor.kind_of_kinds hc, Cursor.kind_of_kinds hd]
    by_cases hfound : found = kind
    · rw [if_pos hfound]
      exact .inr ⟨c₁, d₁, rfl, rfl, hnext⟩
    · rw [if_neg hfound]
      exact .inl ⟨rfl, rfl⟩
  · exact .inl ⟨hc.skip? hkind, hd.skip? hkind⟩

/-- The cursors stand before tokens of the same kind, where that is neither a line break nor the
end. -/
theorem peek (h : k.Beside c d) (kind : Kind) (hbreak : kind ≠ .newline) (heof : kind ≠ .eof) :
    c.peek.kind = kind ↔ d.peek.kind = kind := by
  have hnot : ∀ {input : Input} {c : Cursor input}, c.AtBreak → input.stop.kind = .eof →
    c.peek.kind ≠ kind := by
    intro input c hat hstop heq
    rcases hat.peek hstop with hpeek | hpeek
    · exact hbreak (heq.symm.trans hpeek)
    · exact heof (heq.symm.trans hpeek)
  rcases h.cases with ⟨found, c₁, d₁, -, hc, hd, -⟩ | ⟨hc, hd⟩
  · rw [Cursor.kind_of_kinds hc, Cursor.kind_of_kinds hd]
  · exact iff_of_false (hnot hc k.stop) (hnot hd k.stop')

/-- The second token is looked at in the same way, where the first one is no line break. -/
theorem secondKind? (h : k.Beside c d) (hc : ¬ c.AtBreak) (hkind : kind ≠ .newline) :
    (c.secondKind? == some kind) = (d.secondKind? == some kind) := by
  have hnot : ∀ {input : Input} {c : Cursor input}, c.AtBreak → c.kinds[0]? ≠ some kind := by
    intro input c hat heq
    obtain ⟨ks, hks⟩ := List.head?_eq_some_iff.mp (List.head?_eq_getElem? ▸ heq)
    exact hkind (hat kind ks hks)
  obtain ⟨first, c₁, d₁, -, hck, hdk, hnext, -⟩ := h.cases.resolve_right fun hbreak => hc hbreak.1
  rw [Bool.eq_iff_iff, beq_iff_eq, beq_iff_eq, Cursor.secondKind?_eq, Cursor.secondKind?_eq,
    hck, hdk, List.getElem?_cons_succ, List.getElem?_cons_succ]
  rcases hnext.cases with ⟨second, c₂, d₂, -, hck₁, hdk₁, -⟩ | ⟨hc₁, hd₁⟩
  · rw [hck₁, hdk₁, List.getElem?_cons_zero, List.getElem?_cons_zero]
  · exact iff_of_false (hnot hc₁) (hnot hd₁)

theorem closesBeforeAssign {c : Cursor input} {d : Cursor input'} (h : k.Beside c d) (depth : Nat) :
    c.closesBeforeAssign depth = d.closesBeforeAssign depth := by
  rcases h.cases with ⟨kind, ⟨c₁, h₁⟩, d₁, -, hc, hd, hnext, hcstep, hdstep⟩ | ⟨hc, hd⟩
  · have hassign : (c₁.peek.kind == .mark .assign) = (d₁.val.peek.kind == .mark .assign) := by
      rw [Bool.eq_iff_iff, beq_iff_eq, beq_iff_eq]
      exact hnext.peek _ (by decide) (by decide)
    have ih : ∀ depth, c₁.closesBeforeAssign depth = d₁.val.closesBeforeAssign depth :=
      fun depth => closesBeforeAssign hnext depth
    rw [Cursor.closesBeforeAssign, Cursor.closesBeforeAssign, hcstep, hdstep,
      Cursor.kind_of_kinds hc, Cursor.kind_of_kinds hd]
    simp only [Option.map_some, ih, hassign]
  · rw [hc.closesBeforeAssign, hd.closesBeforeAssign]
termination_by c.left

/-- An assignment is told from an expression in the same way, where there is a token. -/
theorem atAssignment (h : k.Beside c d) (hc : ¬ c.AtBreak) : c.atAssignment = d.atAssignment := by
  obtain ⟨-, c₁, d₁, -, -, -, hnext, hcstep, hdstep⟩ :=
    h.cases.resolve_right fun hbreak => hc hbreak.1
  rw [Cursor.atAssignment, Cursor.atAssignment, hcstep, hdstep]
  simp only [Option.map_some, hnext.closesBeforeAssign]
  rcases hnext.cases with ⟨second, c₂, d₂, -, hc₁, hd₁, -⟩ | ⟨hc₁, hd₁⟩
  · rw [Cursor.kind_of_kinds hc₁, Cursor.kind_of_kinds hd₁]
  · rcases hc₁.peek k.stop with hcp | hcp <;> rcases hd₁.peek k.stop' with hdp | hdp <;>
      rw [hcp, hdp]

/-- A name with an assignment sign behind it is found before both cursors or before none. -/
theorem atLoopVariable (h : k.Beside c d) :
    (c.atName && c.secondKind? == some (.mark .assign)) =
    (d.atName && d.secondKind? == some (.mark .assign)) := by
  by_cases hbreak : c.AtBreak ∧ d.AtBreak
  · rw [hbreak.1.atName k.stop, hbreak.2.atName k.stop', Bool.false_and, Bool.false_and]
  · obtain ⟨kind, c₁, d₁, hkind, hc, hd, -⟩ := h.cases.resolve_right hbreak
    unfold Cursor.atName
    rw [h.secondKind? (fun hat => hkind (hat _ _ hc)) (by decide), Cursor.kind_of_kinds hc,
      Cursor.kind_of_kinds hd]

/-- A fault that says nothing of its place is the same for both cursors. -/
theorem fault (h : k.Beside c d) (fault : SyntaxFault) (hfault : ∀ n, fault.down n = fault) :
    k.Blames (.grammar c.peek.toPosition fault) (.grammar d.peek.toPosition fault) :=
  k.blames_token (F := fun _ => fault) (fun _ n => (hfault n).symm) h

theorem mismatch (h : k.Beside c d) (fault : TypeFault) :
    k.Blames (.typeMismatch c.peek.line fault) (.typeMismatch d.peek.line fault) :=
  k.blames_line (E := fun line => .typeMismatch line fault) (fun _ _ => rfl) (k.lines h)

end Beside

end Pairing

/-! ### Steps over a token -/

namespace Analysis

variable {c : Cursor input} {d : Cursor input'} {α β : Type} {φ : α → β → Prop} {χ : α → Prop}
  {ψ : β → Prop}

theorem inStep_unexpected (h : k.Beside c d) (what : String) :
    InStepUpTo k φ χ ψ (unexpected c what) (unexpected d what) :=
  .throw (k.blames_token (F := fun t => .expected what t) (fun _ _ => rfl) h)

theorem inStep_expect (h : k.Beside c d) (hkind : kind ≠ .newline) (what : String) :
    InStep k (fun c₁ d₁ => k.Beside c₁.val d₁.val) (expect c kind what) (expect d kind what) := by
  unfold expect
  rcases h.skip? kind hkind with ⟨hc, hd⟩ | ⟨c₁, d₁, hc, hd, h₁⟩
  · rw [hc, hd]
    exact inStep_unexpected h what
  · rw [hc, hd]
    exact .pure h₁

theorem inStep_expectName (h : k.Beside c d) (what : String) :
    InStep k k.Alongside (expectName c what) (expectName d what) := by
  unfold expectName
  dsimp only
  rcases h.cases with ⟨kind, c₁, d₁, -, hc, hd, hnext, hcstep, hdstep⟩ | ⟨hc, hd⟩
  · rw [hcstep, hdstep, Cursor.kind_of_kinds hc, Cursor.kind_of_kinds hd]
    cases kind with
    | name text => exact .pure ⟨rfl, hnext⟩
    | _ => exact inStep_unexpected h what
  · rw [hc.step? (by intro t ht; rw [ht]), hd.step? (by intro t ht; rw [ht])]
    exact inStep_unexpected h what

theorem inStep_expectType (h : k.Beside c d) :
    InStep k k.Alongside (expectType c) (expectType d) := by
  unfold expectType
  dsimp only
  rcases h.cases with ⟨kind, c₁, d₁, -, hc, hd, hnext, hcstep, hdstep⟩ | ⟨hc, hd⟩
  · rw [hcstep, hdstep, Cursor.kind_of_kinds hc, Cursor.kind_of_kinds hd]
    cases kind with
    | keyword w =>
      cases w with
      | int => exact .pure ⟨rfl, hnext⟩
      | double => exact .pure ⟨rfl, hnext⟩
      | _ => exact inStep_unexpected h _
    | _ => exact inStep_unexpected h _
  · rw [hc.step? (by intro t ht; rw [ht]), hd.step? (by intro t ht; rw [ht])]
    exact inStep_unexpected h _

/-- A line break is found before both cursors or before none, unless one of them stands at the end
and the other one before the last line breaks. -/
theorem inStep_expectBreak (h : k.Beside c d) (what : String) :
    InStepUpTo k (fun c₁ d₁ => k.Behind c₁.val d₁.val) (fun c₁ => c₁.val.Spent)
    (fun d₁ => d₁.val.Spent)
      (expect c .newline what) (expect d .newline what) := by
  unfold expect
  rcases k.breaks h with ⟨hc, hd⟩ | ⟨c₁, d₁, hc, hd, hbehind⟩ | ⟨hc, hapart⟩ | ⟨d₁, hc, hd, hspent,
    hsloppy⟩ | ⟨c₁, hc, hd, hspent, hsloppy⟩
  · rw [hc, hd]
    exact inStep_unexpected h what
  · rw [hc, hd]
    exact .pure hbehind
  · rw [hc]
    exact .of_fails (fun _ => rfl) hapart
  · rw [hc, hd]
    exact fun _ _ _ => .right hspent fun e' he' => hsloppy _ e' trivial he'
  · rw [hc, hd]
    exact fun _ _ _ => .left hspent fun e' he' => hsloppy e' _ he' trivial

end Analysis

end Pseudocode
