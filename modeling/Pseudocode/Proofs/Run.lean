import Std.Data.TreeMap

/-!
Runs that succeed, and runs that fail.

Reading a program and generating code for it are both computations with a state that may fail and
keep the state when they do.  `Runs m s a s'` says that such a computation succeeds: begun in the
state `s` it gives `a` and ends in `s'`.  A run of several steps is taken apart into runs of the
steps (`runs_bind`), and every other law here says what a single step does.  With them a proof about
a long computation never looks at how states and failures are passed on.

`Fails m s e` says that the computation fails, and why.  `Triple P m Q E` speaks of both outcomes at
once: begun in a state like `P`, what is given and where it ends satisfy `Q`, and what a failure
tells satisfies `E`.  `Ends E m Q` says it of every state.  `Outcomes P m Q E` also says where a
failure ends.
-/

namespace Pseudocode

variable {ε σ α β : Type} {c : Prop}

variable {a : α} {m : ExceptT ε (StateM σ) α} {f : α → ExceptT ε (StateM σ) β} {e : ε}

/-- What a computation gives, or why it fails, and the state it ends in. -/
def outcome (m : ExceptT ε (StateM σ) α) (s : σ) : Except ε α × σ :=
  m.run.run s

/-- The computation succeeds: from `s` it gives `a` and ends in `s'`. -/
def Runs (m : ExceptT ε (StateM σ) α) (s : σ) (a : α) (s' : σ) : Prop :=
  outcome m s = (.ok a, s')

variable {s s' : σ}

theorem eq_ok_of_toOption {r : Except ε α} (h : r.toOption = some a) : r = .ok a := by
  cases r with
  | error e => simp [Except.toOption] at h
  | ok b => exact congrArg Except.ok (Option.some.inj h)

theorem runs_of_toOption (h : (outcome m s).1.toOption = some a) : Runs m s a (outcome m s).2 :=
  Prod.ext (eq_ok_of_toOption h) rfl

/-! ### Steps -/

theorem outcome_bind (m : ExceptT ε (StateM σ) α) (f : α → ExceptT ε (StateM σ) β) (s : σ) :
    outcome (m >>= f) s = match outcome m s with
      | (.ok a, s₁) => outcome (f a) s₁
      | (.error e, s₁) => (.error e, s₁) := by
  rcases h : outcome m s with ⟨r, s₁⟩
  have hm : m s = (r, s₁) := h
  unfold outcome
  simp only [ExceptT.run, StateT.run, bind, ExceptT.bind, ExceptT.mk, StateT.bind, hm]
  cases r <;> rfl

/-- A run of two steps is a run of the first and, from where it ends, a run of the second. -/
theorem runs_bind {b : β} : Runs (m >>= f) s b s' ↔ ∃ a s₁, Runs m s a s₁ ∧ Runs (f a) s₁ b s' := by
  unfold Runs
  rw [outcome_bind]
  rcases outcome m s with ⟨r, s₁⟩
  cases r with
  | error e => simp
  | ok a =>
    constructor
    · intro h
      exact ⟨a, s₁, rfl, h⟩
    · rintro ⟨a', s₁', heq, h⟩
      simp only [Prod.mk.injEq, Except.ok.injEq] at heq
      obtain ⟨rfl, rfl⟩ := heq
      exact h

theorem runs_pure {b : α} : Runs (pure a : ExceptT ε (StateM σ) α) s b s' ↔ b = a ∧ s' = s := by
  show ((Except.ok a : Except ε α), s) = (Except.ok b, s') ↔ _
  rw [Prod.mk.injEq, Except.ok.injEq, eq_comm, @eq_comm _ s]

theorem not_runs_throw : ¬ Runs (throw e : ExceptT ε (StateM σ) α) s a s' := by
  intro h
  have h' : ((Except.error e : Except ε α), s) = (Except.ok a, s') := h
  simp at h'

theorem runs_get {a : σ} : Runs (get : ExceptT ε (StateM σ) σ) s a s' ↔ a = s ∧ s' = s := by
  show ((Except.ok s : Except ε σ), s) = (Except.ok a, s') ↔ _
  rw [Prod.mk.injEq, Except.ok.injEq, eq_comm, @eq_comm _ s s']

theorem runs_modify {f : σ → σ} {u : Unit} :
    Runs (modify f : ExceptT ε (StateM σ) Unit) s u s' ↔ s' = f s := by
  show ((Except.ok () : Except ε Unit), f s) = (Except.ok u, s') ↔ _
  simp [eq_comm]

theorem runs_modifyGet {f : σ → α × σ} : Runs (modifyGet f : ExceptT ε (StateM σ) α) s a s' ↔
    f s = (a, s') := by
  show ((Except.ok (f s).1 : Except ε α), (f s).2) = (Except.ok a, s') ↔ _
  simp [Prod.ext_iff]

theorem runs_get_bind {f : σ → ExceptT ε (StateM σ) α} : Runs (get >>= f) s a s' ↔
    Runs (f s) s a s' :=
  Iff.rfl

theorem runs_modify_bind {f : σ → σ} {k : Unit → ExceptT ε (StateM σ) α} :
    Runs (modify f >>= k) s a s' ↔ Runs (k ()) (f s) a s' :=
  Iff.rfl

theorem runs_bind_pure {g : α → β} {b : β} : Runs (m >>= fun a => pure (g a)) s b s' ↔
    ∃ a, Runs m s a s' ∧ b = g a := by
  simp only [runs_bind, runs_pure]
  exact exists_congr fun a => ⟨fun ⟨_, h, hb, hs⟩ => hs ▸ ⟨h, hb⟩, fun ⟨h, hb⟩ => ⟨s', h, hb, rfl⟩⟩

/-! ### Choices and repetitions -/

theorem runs_check [Decidable c] {f : β → ExceptT ε (StateM σ) α} :
    Runs (if c then throw e >>= f else m) s a s' ↔ ¬ c ∧ Runs m s a s' := by
  by_cases hc : c
  · rw [if_pos hc, runs_bind]
    constructor
    · rintro ⟨b, s₁, hthrow, -⟩
      exact absurd hthrow not_runs_throw
    · exact fun h => absurd hc h.1
  · rw [if_neg hc]
    exact ⟨fun h => ⟨hc, h⟩, fun h => h.2⟩

theorem bind_eq_ok {m : Except ε α} {f : α → Except ε β} {b : β} :
    m >>= f = .ok b ↔ ∃ a, m = .ok a ∧ f a = .ok b := by
  cases m with
  | error e => simp [bind, Except.bind]
  | ok a => simp [bind, Except.bind]

theorem pure_eq_ok {b : α} : (pure a : Except ε α) = .ok b ↔ b = a := by
  show Except.ok a = Except.ok b ↔ _
  rw [Except.ok.injEq, eq_comm]

theorem map_eq_ok {f : α → β} {m : Except ε α} {b : β} : m.map f = .ok b ↔ ∃ a, m = .ok a ∧
    f a = b := by
  cases m <;> simp [Except.map]

theorem mapError_eq_ok {ε' : Type} {f : ε → ε'} {m : Except ε α} : m.mapError f = .ok a ↔
    m = .ok a := by
  cases m with
  | error e => exact ⟨nofun, nofun⟩
  | ok b =>
    show Except.ok b = Except.ok a ↔ Except.ok b = Except.ok a
    rw [Except.ok.injEq, Except.ok.injEq]

theorem runs_mapM_nil {bs : List β} : Runs ([].mapM f) s bs s' ↔ bs = [] ∧ s' = s := by
  rw [List.mapM_nil, runs_pure]

theorem runs_mapM_cons {as : List α} {bs : List β} :
    Runs ((a :: as).mapM f) s bs s' ↔
      ∃ b s₁ rest, Runs (f a) s b s₁ ∧ Runs (as.mapM f) s₁ rest s' ∧ bs = b :: rest := by
  simp only [List.mapM_cons, runs_bind, runs_pure]
  refine exists_congr fun b => exists_congr fun s₁ => ?_
  simp

theorem runs_forM_nil {f : α → ExceptT ε (StateM σ) PUnit} {u : PUnit} :
    Runs (forM [] f) s u s' ↔ s' = s := by
  rw [List.forM_nil, runs_pure]
  simp

theorem runs_forM_cons {f : α → ExceptT ε (StateM σ) PUnit} {as : List α} {u : PUnit} :
    Runs (forM (a :: as) f) s u s' ↔ ∃ s₁, Runs (f a) s u s₁ ∧ Runs (forM as f) s₁ u s' := by
  simp only [List.forM_cons, runs_bind]
  exact ⟨fun ⟨_, s₁, h⟩ => ⟨s₁, h⟩, fun ⟨s₁, h⟩ => ⟨u, s₁, h⟩⟩

/-! ### Failures -/

/-- The computation fails: begun in `s` it tells `e`. -/
def Fails (m : ExceptT ε (StateM σ) α) (s : σ) (e : ε) : Prop :=
  (outcome m s).1 = .error e

theorem fails_bind : Fails (m >>= f) s e ↔ Fails m s e ∨ ∃ a s₁, Runs m s a s₁ ∧
    Fails (f a) s₁ e := by
  unfold Fails Runs
  rw [outcome_bind]
  rcases outcome m s with ⟨r, s₁⟩
  cases r with
  | error e' => simp
  | ok a =>
    constructor
    · intro h
      exact .inr ⟨a, s₁, rfl, h⟩
    · rintro (h | ⟨a', s₁', heq, h⟩)
      · simp at h
      · simp only [Prod.mk.injEq, Except.ok.injEq] at heq
        obtain ⟨rfl, rfl⟩ := heq
        exact h

theorem not_fails_of_runs (h : Runs m s a s') : ¬ Fails m s e := by
  unfold Fails
  rw [h]
  simp

theorem not_fails_pure : ¬ Fails (pure a : ExceptT ε (StateM σ) α) s e :=
  not_fails_of_runs (runs_pure.2 ⟨rfl, rfl⟩)

theorem fails_throw {e' : ε} : Fails (throw e : ExceptT ε (StateM σ) α) s e' ↔ e' = e := by
  show (Except.error e : Except ε α) = Except.error e' ↔ _
  rw [Except.error.injEq, eq_comm]

theorem not_fails_modify {f : σ → σ} : ¬ Fails (modify f : ExceptT ε (StateM σ) Unit) s e :=
  not_fails_of_runs (a := ()) (runs_modify.2 rfl)

theorem not_fails_get : ¬ Fails (get : ExceptT ε (StateM σ) σ) s e :=
  not_fails_of_runs (runs_get.2 ⟨rfl, rfl⟩)

theorem not_fails_modifyGet {f : σ → α × σ} : ¬ Fails (modifyGet f : ExceptT ε (StateM σ) α) s e :=
  not_fails_of_runs (runs_modifyGet.2 rfl)

theorem fails_get_bind {f : σ → ExceptT ε (StateM σ) α} : Fails (get >>= f) s e ↔ Fails (f s) s e :=
  Iff.rfl

theorem fails_modify_bind {f : σ → σ} {k : Unit → ExceptT ε (StateM σ) α} :
    Fails (modify f >>= k) s e ↔ Fails (k ()) (f s) e :=
  Iff.rfl

theorem fails_bind_pure {g : α → β} : Fails (m >>= fun a => pure (g a)) s e ↔ Fails m s e := by
  simp only [fails_bind, not_fails_pure, and_false, exists_false, or_false]

theorem fails_check [Decidable c] {e' : ε} {f : β → ExceptT ε (StateM σ) α} :
    Fails (if c then throw e' >>= f else m) s e ↔ c ∧ e = e' ∨ ¬ c ∧ Fails m s e := by
  by_cases hc : c <;> simp [hc, fails_throw]

/-! ### Both outcomes -/

/-- Begun in a state like `P`, the computation gives and ends in what `Q` says, or it fails as `E`
allows. -/
def Triple (P : σ → Prop) (m : ExceptT ε (StateM σ) α) (Q : α → σ → Prop) (E : ε → Prop) : Prop :=
  ∀ s, P s → (∀ a s', Runs m s a s' → Q a s') ∧ ∀ e, Fails m s e → E e

namespace Triple

variable {P P' : σ → Prop} {m : ExceptT ε (StateM σ) α} {Q Q' : α → σ → Prop} {E E' : ε → Prop}

theorem mono (h : Triple P m Q E) (hP : ∀ s, P' s → P s) (hQ : ∀ a s, Q a s → Q' a s)
    (hE : ∀ e, E e → E' e) : Triple P' m Q' E' :=
  fun s hs => ⟨fun a s' hrun => hQ a s' ((h s (hP s hs)).1 a s' hrun),
    fun e he => hE e ((h s (hP s hs)).2 e he)⟩

theorem bind {R : β → σ → Prop} (hm : Triple P m Q E) (hf : ∀ a, Triple (Q a) (f a) R E) :
    Triple P (m >>= f) R E := by
  intro s hs
  constructor
  · intro b s' h
    obtain ⟨a, s₁, hrun, hrest⟩ := runs_bind.1 h
    exact (hf a s₁ ((hm s hs).1 a s₁ hrun)).1 b s' hrest
  · intro e h
    rcases fails_bind.1 h with h | ⟨a, s₁, hrun, hrest⟩
    · exact (hm s hs).2 e h
    · exact (hf a s₁ ((hm s hs).1 a s₁ hrun)).2 e hrest

theorem pure (h : ∀ s, P s → Q a s) : Triple P (Pure.pure a : ExceptT ε (StateM σ) α) Q E := by
  intro s hs
  refine ⟨fun b s' hrun => ?_, fun e he => absurd he not_fails_pure⟩
  obtain ⟨rfl, rfl⟩ := runs_pure.1 hrun
  exact h s' hs

theorem throw (h : E e) : Triple P (MonadExcept.throw e : ExceptT ε (StateM σ) α) Q E := by
  intro s _
  refine ⟨fun a s' hrun => absurd hrun not_runs_throw, fun e' he => ?_⟩
  rw [fails_throw.1 he]
  exact h

theorem get {Q : σ → σ → Prop} (h : ∀ s, P s → Q s s) :
    Triple P (get : ExceptT ε (StateM σ) σ) Q E := by
  intro s hs
  refine ⟨fun t s' hrun => ?_, fun e he => absurd he not_fails_get⟩
  obtain ⟨rfl, rfl⟩ := runs_get.1 hrun
  exact h _ hs

theorem modify {f : σ → σ} {Q : Unit → σ → Prop} (h : ∀ s, P s → Q () (f s)) :
    Triple P (modify f : ExceptT ε (StateM σ) Unit) Q E := by
  intro s hs
  refine ⟨fun u s' hrun => ?_, fun e he => absurd he not_fails_modify⟩
  rw [runs_modify.1 hrun]
  exact h s hs

theorem modifyGet {f : σ → α × σ} (h : ∀ s, P s → Q (f s).1 (f s).2) :
    Triple P (modifyGet f : ExceptT ε (StateM σ) α) Q E := by
  intro s hs
  refine ⟨fun a s' hrun => ?_, fun e he => absurd he not_fails_modifyGet⟩
  have hstep := h s hs
  rw [runs_modifyGet.1 hrun] at hstep
  exact hstep

/-- What is known of the state may be used before the computation is looked at. -/
theorem of_state (h : ∀ s, P s → Triple (· = s) m Q E) : Triple P m Q E :=
  fun s hs => h s hs s rfl

end Triple

/-- From every state the computation gives what `Q` says, or it fails as `E` allows. -/
def Ends (E : ε → Prop) (m : ExceptT ε (StateM σ) α) (Q : α → Prop) : Prop :=
  Triple (fun _ => True) m (fun a _ => Q a) E

namespace Ends

variable {E : ε → Prop} {m : ExceptT ε (StateM σ) α} {Q R : α → Prop}

theorem bind {R : β → Prop} (hm : Ends E m Q) (hf : ∀ a, Q a → Ends E (f a) R) :
    Ends E (m >>= f) R :=
  Triple.bind hm fun a s ha => hf a ha s trivial

theorem pure (h : Q a) : Ends E (Pure.pure a : ExceptT ε (StateM σ) α) Q :=
  Triple.pure fun _ _ => h

theorem throw (h : E e) : Ends E (MonadExcept.throw e : ExceptT ε (StateM σ) α) Q :=
  Triple.throw h

theorem modify {f : σ → σ} {R : Unit → Prop} (h : R ()) :
    Ends E (modify f : ExceptT ε (StateM σ) Unit) R :=
  Triple.modify fun _ _ => h

theorem check [Decidable c] {f : β → ExceptT ε (StateM σ) α} (hc : c → E e)
    (hm : ¬ c → Ends E m Q) :
    Ends E (if c then (MonadExcept.throw e : ExceptT ε (StateM σ) β) >>= f else m) Q := by
  by_cases h : c
  · rw [if_pos h]
    exact (throw (Q := fun _ => False) (hc h)).bind fun _ hfalse => hfalse.elim
  · rw [if_neg h]
    exact hm h

theorem require [Decidable c] {f : β → ExceptT ε (StateM σ) α} (hc : ¬ c → E e)
    (hm : c → Ends E m Q) :
    Ends E (if c then m else (MonadExcept.throw e : ExceptT ε (StateM σ) β) >>= f) Q := by
  rw [← ite_not]
  exact check hc fun h => hm (Decidable.not_not.1 h)

end Ends

/-! ### What a failure leaves behind -/

/-- Begun in a state like `P`, the computation gives and ends in what `Q` says, or it tells and ends
in what `E` says. -/
def Outcomes (P : σ → Prop) (m : ExceptT ε (StateM σ) α) (Q : α → σ → Prop) (E : ε → σ → Prop) :
    Prop :=
  ∀ s, P s → match outcome m s with
    | (.ok a, s') => Q a s'
    | (.error e, s') => E e s'

namespace Outcomes

variable {P P' : σ → Prop} {m : ExceptT ε (StateM σ) α} {Q Q' : α → σ → Prop} {E E' : ε → σ → Prop}

theorem mono (h : Outcomes P m Q E) (hP : ∀ s, P' s → P s) (hQ : ∀ a s, Q a s → Q' a s)
    (hE : ∀ e s, E e s → E' e s) : Outcomes P' m Q' E' := by
  intro s hs
  have hm := h s (hP s hs)
  rcases hout : outcome m s with ⟨r, s₁⟩
  rw [hout] at hm
  cases r with
  | error e => exact hE e s₁ hm
  | ok a => exact hQ a s₁ hm

theorem bind {R : β → σ → Prop} (hm : Outcomes P m Q E) (hf : ∀ a, Outcomes (Q a) (f a) R E) :
    Outcomes P (m >>= f) R E := by
  intro s hs
  have hfirst := hm s hs
  rw [outcome_bind]
  rcases hout : outcome m s with ⟨r, s₁⟩
  rw [hout] at hfirst
  cases r with
  | error e => exact hfirst
  | ok a => exact hf a s₁ hfirst

theorem pure (h : ∀ s, P s → Q a s) : Outcomes P (Pure.pure a : ExceptT ε (StateM σ) α) Q E :=
  h

theorem throw (h : ∀ s, P s → E e s) :
    Outcomes P (MonadExcept.throw e : ExceptT ε (StateM σ) α) Q E :=
  h

theorem get {Q : σ → σ → Prop} (h : ∀ s, P s → Q s s) :
    Outcomes P (get : ExceptT ε (StateM σ) σ) Q E :=
  h

theorem modify {f : σ → σ} {Q : Unit → σ → Prop} (h : ∀ s, P s → Q () (f s)) :
    Outcomes P (modify f : ExceptT ε (StateM σ) Unit) Q E :=
  h

theorem check [Decidable c] {f : β → ExceptT ε (StateM σ) α} (hc : c → ∀ s, P s → E e s)
    (hm : ¬ c → Outcomes P m Q E) :
    Outcomes P (if c then (MonadExcept.throw e : ExceptT ε (StateM σ) β) >>= f else m) Q E := by
  by_cases h : c
  · rw [if_pos h]
    exact (throw (Q := fun _ _ => False) (hc h)).bind fun _ _ hfalse => hfalse.elim
  · rw [if_neg h]
    exact hm h

theorem require [Decidable c] {f : β → ExceptT ε (StateM σ) α} (hc : ¬ c → ∀ s, P s → E e s)
    (hm : c → Outcomes P m Q E)
    : Outcomes P (if c then m else (MonadExcept.throw e : ExceptT ε (StateM σ) β) >>= f) Q E := by
  rw [← ite_not]
  exact check hc fun h => hm (Decidable.not_not.1 h)

end Outcomes

end Pseudocode
