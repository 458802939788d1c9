import Pseudocode.Proofs.Slots.Trail

/-!
Trails through loops.

A loop may be run any number of times, and yet its trail is found by going through its body twice:
once to see what a turn may store to last, and once more from there.  That is enough because of how
a turn acts on the slots that have been stored to last.  A path through the body either stores to no
slot of the variable, and then nothing is changed by it, or the slot that it stores to last does not
depend on where it comes from (`Steady`).  So a second turn adds nothing that the first has not
added (`Piece.around`).

`Trail.Piece` is what is used of a piece of a program: it is steady, the slots that it gives do not
depend on what has been stored last, and if it is settled, then it is also settled where fewer paths
lead to.
-/

namespace Pseudocode

variable {params : List Param}

/-- From a slot that has been stored to last to the next one, either nothing is changed or it does
not matter which slot it was. -/
def Steady (next : Option Nat → Option Nat → Prop) : Prop :=
  ∀ j? k?, next j? k? → (k? = j? ∧ ∀ i?, next i? i?) ∨ ∀ i?, next i? k?

namespace Steady

variable {first second : Option Nat → Option Nat → Prop}

theorem comp (h₁ : Steady first) (h₂ : Steady second) : Steady fun i? k? => ∃ j?, first i? j? ∧
    second j? k? := by
  rintro i? k? ⟨j?, hfirst, hsecond⟩
  rcases h₁ i? j? hfirst with ⟨rfl, hkeeps⟩ | hmakes
  · rcases h₂ j? k? hsecond with ⟨rfl, hkeeps'⟩ | hmakes'
    · exact Or.inl ⟨rfl, fun i? => ⟨i?, hkeeps i?, hkeeps' i?⟩⟩
    · exact Or.inr fun i? => ⟨i?, hkeeps i?, hmakes' i?⟩
  · exact Or.inr fun i? => ⟨j?, hmakes i?, hsecond⟩

theorem or (h₁ : Steady first) (h₂ : Steady second) : Steady fun i? k? => first i? k? ∨
    second i? k? := by
  rintro i? k? (hfirst | hsecond)
  · rcases h₁ i? k? hfirst with ⟨rfl, hkeeps⟩ | hmakes
    · exact Or.inl ⟨rfl, fun i? => Or.inl (hkeeps i?)⟩
    · exact Or.inr fun i? => Or.inl (hmakes i?)
  · rcases h₂ i? k? hsecond with ⟨rfl, hkeeps⟩ | hmakes
    · exact Or.inl ⟨rfl, fun i? => Or.inr (hkeeps i?)⟩
    · exact Or.inr fun i? => Or.inr (hmakes i?)

end Steady

namespace Trail

theorem store_eq (t : Trail) (kind : SlotKind) : ∃ k count, ∀ last : Finset (Option Nat),
    Trail.store { t with last } kind = ⟨some (k, kind), count, last.image fun _ => some k⟩ := by
  cases hslot : t.slot? with
  | none => exact ⟨t.count, t.count + 1, fun _ => rfl⟩
  | some slot =>
    by_cases hkind : slot.2 = kind
    · exact ⟨slot.1, t.count, fun _ => by simp [store, ← hkind]⟩
    · exact ⟨t.count, t.count + 1, fun _ => by simp [store, renew, hkind]⟩

/-- What a piece of a program does to a trail, and whether it is settled. -/
structure Piece (go : Trail → Trail) (ok : Trail → Prop) : Prop where
  slot? : ∀ (t : Trail) (last : Finset (Option Nat)), (go { t with last }).slot? = (go t).slot?
  count : ∀ (t : Trail) (last : Finset (Option Nat)), (go { t with last }).count = (go t).count
  last : ∀ t : Trail, ∃ next, Steady next ∧
    ∀ (last : Finset (Option Nat)) k?, k? ∈ (go { t with last }).last ↔ ∃ j? ∈ last, next j? k?
  fewer : ∀ (t : Trail) (last last' : Finset (Option Nat)), last ⊆ last' →
    ok { t with last := last' } → ok { t with last }

namespace Piece

variable {go go₁ go₂ : Trail → Trail} {ok ok₁ ok₂ : Trail → Prop}

/-- Only the slots that have been stored to last depend on which they were. -/
theorem eq (h : Piece go ok) (t : Trail) (last : Finset (Option Nat)) :
    go { t with last } = { go t with last := (go { t with last }).last } :=
  Trail.ext (h.slot? t last) (h.count t last) rfl

theorem subset (h : Piece go ok) (t : Trail) {last last' : Finset (Option Nat)}
    (hsub : last ⊆ last') : (go { t with last }).last ⊆ (go { t with last := last' }).last := by
  obtain ⟨next, -, hnext⟩ := h.last t
  intro k? hk
  obtain ⟨j?, hj, hstep⟩ := (hnext last k?).1 hk
  exact (hnext last' k?).2 ⟨j?, hsub hj, hstep⟩

theorem congr (h : Piece go ok) (hok : ∀ t, ok t ↔ ok₁ t) : Piece go ok₁ :=
  ⟨h.slot?, h.count, h.last, fun t last last' hsub h₁ =>
    (hok _).1 (h.fewer t last last' hsub ((hok _).2 h₁))⟩

/-- **A second turn stores to nothing last that the first does not.** -/
theorem around (h : Piece go ok) (t : Trail) : (go (t.around go)).last ⊆ (t.around go).last := by
  obtain ⟨next, hsteady, hnext⟩ := h.last t
  have hturn : ∀ k?, k? ∈ (go t).last ↔ ∃ j? ∈ t.last, next j? k? := hnext t.last
  intro k? hk
  obtain ⟨j?, hj, hstep⟩ := (hnext _ k?).1 hk
  rw [Trail.around, Finset.mem_union]
  rcases Finset.mem_union.mp hj with hj | hj
  · exact Or.inr ((hturn k?).2 ⟨j?, hj, hstep⟩)
  · rcases hsteady j? k? hstep with ⟨rfl, -⟩ | hmakes
    · exact Or.inr hj
    · obtain ⟨i?, hi, -⟩ := (hturn j?).1 hj
      exact Or.inr ((hturn k?).2 ⟨i?, hi, hmakes i?⟩)

/-! ### Putting pieces together -/

theorem check (x : String) (names : Trail → List String)
    (hnames : ∀ (t : Trail) (last : Finset (Option Nat)), names { t with last } = names t) :
    Piece (fun t => t) fun t => t.allows x (names t) := by
  refine ⟨fun _ _ => rfl, fun _ _ => rfl, ?_, ?_⟩
  · intro t
    exact ⟨fun j? k? => k? = j?, fun j? k? h => Or.inl ⟨h, fun _ => rfl⟩, by simp⟩
  · intro t last last' hsub h
    rw [allows, hnames, Bool.or_eq_true] at h ⊢
    refine h.imp_right fun hloads => ?_
    rw [loads, decide_eq_true_eq] at hloads ⊢
    exact fun k? hk => hloads k? (hsub hk)

theorem store (kind : SlotKind) : Piece (fun t => t.store kind) fun _ => True := by
  refine ⟨?_, ?_, ?_, fun _ _ _ _ h => h⟩
  · intro t last
    obtain ⟨k, count, hstore⟩ := t.store_eq kind
    exact (congrArg Trail.slot? (hstore last)).trans (congrArg Trail.slot? (hstore t.last)).symm
  · intro t last
    obtain ⟨k, count, hstore⟩ := t.store_eq kind
    exact (congrArg Trail.count (hstore last)).trans (congrArg Trail.count (hstore t.last)).symm
  · intro t
    obtain ⟨k, count, hstore⟩ := t.store_eq kind
    refine ⟨fun _ k? => k? = some k, fun _ k? h => Or.inr fun _ => h, fun last k? => ?_⟩
    rw [hstore last]
    simp [eq_comm]

theorem stop : Piece (fun t => { t with last := ∅ }) fun _ => True :=
  ⟨fun _ _ => rfl, fun _ _ => rfl, fun _ => ⟨fun _ _ => False, fun _ _ h => h.elim, by simp⟩,
    fun _ _ _ _ h => h⟩

theorem nothing : Piece (fun t => t) fun _ => True :=
  ⟨fun _ _ => rfl, fun _ _ => rfl,
    fun _ => ⟨fun j? k? => k? = j?, fun _ _ h => Or.inl ⟨h, fun _ => rfl⟩, by simp⟩,
    fun _ _ _ _ h => h⟩

theorem seq (h₁ : Piece go₁ ok₁) (h₂ : Piece go₂ ok₂) :
    Piece (fun t => go₂ (go₁ t)) fun t => ok₁ t ∧ ok₂ (go₁ t) := by
  refine ⟨?_, ?_, ?_, ?_⟩
  · intro t last
    show (go₂ (go₁ { t with last })).slot? = _
    rw [h₁.eq t last, h₂.slot?]
  · intro t last
    show (go₂ (go₁ { t with last })).count = _
    rw [h₁.eq t last, h₂.count]
  · intro t
    obtain ⟨next₁, hsteady₁, hnext₁⟩ := h₁.last t
    obtain ⟨next₂, hsteady₂, hnext₂⟩ := h₂.last (go₁ t)
    refine ⟨_, hsteady₁.comp hsteady₂, ?_⟩
    intro last k?
    show k? ∈ (go₂ (go₁ { t with last })).last ↔ _
    rw [h₁.eq t last, hnext₂]
    constructor
    · rintro ⟨j?, hj, hsecond⟩
      obtain ⟨i?, hi, hfirst⟩ := (hnext₁ last j?).1 hj
      exact ⟨i?, hi, j?, hfirst, hsecond⟩
    · rintro ⟨i?, hi, j?, hfirst, hsecond⟩
      exact ⟨j?, (hnext₁ last j?).2 ⟨i?, hi, hfirst⟩, hsecond⟩
  · rintro t last last' hsub ⟨hok₁, hok₂⟩
    refine ⟨h₁.fewer t last last' hsub hok₁, ?_⟩
    rw [h₁.eq t last'] at hok₂
    rw [h₁.eq t last]
    exact h₂.fewer _ _ _ (h₁.subset t hsub) hok₂

/-- Two arms, the second of which begins with the slots from before the first. -/
theorem arms (h₁ : Piece go₁ ok₁) (h₂ : Piece go₂ ok₂) :
    Piece (fun t => (go₁ t).join (go₂ { t with count := (go₁ t).count }))
      fun t => ok₁ t ∧ ok₂ { t with count := (go₁ t).count } := by
  refine ⟨?_, ?_, ?_, ?_⟩
  · intro t last
    show (go₂ { t with last, count := (go₁ { t with last }).count }).slot?.or
      (go₁ { t with last }).slot? = _
    rw [h₁.count, h₁.slot?, h₂.slot? { t with count := (go₁ t).count } last]
    rfl
  · intro t last
    show (go₂ { t with last, count := (go₁ { t with last }).count }).count = _
    rw [h₁.count, h₂.count { t with count := (go₁ t).count } last]
    rfl
  · intro t
    obtain ⟨next₁, hsteady₁, hnext₁⟩ := h₁.last t
    obtain ⟨next₂, hsteady₂, hnext₂⟩ := h₂.last { t with count := (go₁ t).count }
    refine ⟨_, hsteady₁.or hsteady₂, ?_⟩
    intro last k?
    show k? ∈ (go₁ { t with last }).last ∪
      (go₂ { t with last, count := (go₁ { t with last }).count }).last ↔ _
    rw [Finset.mem_union, h₁.count, hnext₁, hnext₂]
    simp only [and_or_left, exists_or]
  · rintro t last last' hsub ⟨hok₁, hok₂⟩
    refine ⟨h₁.fewer t last last' hsub hok₁, ?_⟩
    rw [h₁.count] at hok₂ ⊢
    exact h₂.fewer { t with count := (go₁ t).count } last last' hsub hok₂

theorem loop (h : Piece go ok) : Piece (fun t => go (t.around go)) fun t => ok (t.around go) := by
  refine ⟨fun t last => ?_, fun t last => ?_, ?_, ?_⟩
  · exact (h.slot? t _).trans (h.slot? t _).symm
  · exact (h.count t _).trans (h.count t _).symm
  · intro t
    obtain ⟨next, hsteady, hnext⟩ := h.last t
    refine ⟨_, hsteady.or (hsteady.comp hsteady), ?_⟩
    intro last k?
    refine (hnext _ k?).trans ?_
    constructor
    · rintro ⟨j?, hj, hstep⟩
      rcases Finset.mem_union.mp hj with hj | hj
      · exact ⟨j?, hj, Or.inl hstep⟩
      · obtain ⟨i?, hi, hfirst⟩ := (hnext last j?).1 hj
        exact ⟨i?, hi, Or.inr ⟨j?, hfirst, hstep⟩⟩
    · rintro ⟨i?, hi, hstep | ⟨j?, hfirst, hstep⟩⟩
      · exact ⟨i?, Finset.mem_union_left _ hi, hstep⟩
      · exact ⟨j?, Finset.mem_union_right _ ((hnext last j?).2 ⟨i?, hi, hfirst⟩), hstep⟩
  · intro t last last' hsub hok
    exact h.fewer t _ _ (Finset.union_subset_union hsub (h.subset t hsub)) hok

end Piece

end Trail

/-! ### Statements -/

open Trail (Piece)

theorem Assignment.reads_last (a : Assignment) (t : Trail) (last : Finset (Option Nat)) :
    a.reads { t with last } = a.reads t := rfl

theorem piece_assignment (x : String) (a : Assignment) :
    Piece (a.trail x) fun t => t.allows x (a.reads t) := by
  have hcheck := Piece.check x a.reads a.reads_last
  cases htarget : a.target with
  | element name index ty =>
    have htrail : a.trail x = fun t => t := by
      funext t
      rw [Assignment.trail, htarget]
    rw [htrail]
    exact hcheck
  | var name shape =>
    by_cases hname : name = x
    · have htrail : a.trail x = fun t => t.store (.scalar shape.ty) := by
        funext t
        simp only [Assignment.trail, htarget, if_pos hname]
      rw [htrail]
      exact (hcheck.seq (Piece.store _)).congr fun t => iff_of_eq (and_true _)
    · have htrail : a.trail x = fun t => t := by
        funext t
        simp only [Assignment.trail, htarget, if_neg hname]
      rw [htrail]
      exact hcheck

mutual

theorem piece_statement (x : String) (st : Stmt) :
    Piece (fun t => st.trail x t) fun t => st.settled x t := by
  cases st with
  | expr e => exact Piece.check x (fun _ => e.addressReads) fun _ _ => rfl
  | assign a => exact piece_assignment x a
  | array ty name size =>
    have hcheck := Piece.check x (fun _ => size.reads) fun _ _ => rfl
    by_cases hname : name = x
    · simp only [Stmt.trail, if_pos hname]
      exact (hcheck.seq (Piece.store _)).congr fun t => iff_of_eq (and_true _)
    · simp only [Stmt.trail, if_neg hname]
      exact hcheck
  | output e => exact Piece.check x (fun _ => e.reads) fun _ _ => rfl
  | input target ty => exact Piece.check x target.reads fun _ _ => rfl
  | ifThen condition body rest =>
    have hcheck := Piece.check x (fun _ => condition.reads) fun _ _ => rfl
    refine (hcheck.seq ((piece_all x body).arms (piece_elsePart x rest))).congr fun t => ?_
    simp only [Stmt.settled, Bool.and_eq_true, and_assoc]
  | whileLoop condition body =>
    have hcheck := Piece.check x (fun _ => condition.reads) fun _ _ => rfl
    refine ((piece_all x body).seq hcheck).loop.congr fun t => ?_
    simp only [Stmt.settled, Bool.and_eq_true]
  | forLoop init bound body =>
    have hcheck := Piece.check x (fun _ => init.target.name :: bound.reads) fun _ _ => rfl
    have hturn := ((piece_all x body).seq (piece_assignment x (Lower.counterStep init))).seq hcheck
    refine ((piece_assignment x init).seq hturn.loop).congr fun t => ?_
    simp only [Stmt.settled, Bool.and_eq_true, and_assoc]
  | subroutine name params body ty => exact Piece.nothing.congr fun t => by simp [Stmt.settled]
  | ret e =>
    have hcheck := Piece.check x (fun _ => e.reads) fun _ _ => rfl
    exact (hcheck.seq Piece.stop).congr fun t => iff_of_eq (and_true _)

theorem piece_all (x : String) (body : List Stmt) :
    Piece (fun t => trailAll x t body) fun t => settledAll x t body := by
  cases body with
  | nil => exact Piece.nothing.congr fun t => by simp [settledAll]
  | cons st rest =>
    refine ((piece_statement x st).seq (piece_all x rest)).congr fun t => ?_
    simp only [settledAll, Bool.and_eq_true]

theorem piece_elsePart (x : String) (part : ElsePart) :
    Piece (fun t => part.trail x t) fun t => part.settled x t := by
  cases part with
  | none => exact Piece.nothing.congr fun t => by simp [ElsePart.settled]
  | body body => exact piece_all x body
  | elseIf condition body rest =>
    have hcheck := Piece.check x (fun _ => condition.reads) fun _ _ => rfl
    refine (hcheck.seq ((piece_all x body).arms (piece_elsePart x rest))).congr fun t => ?_
    simp only [ElsePart.settled, Bool.and_eq_true, and_assoc]

end

/-! ### Variables that are not bound -/

/-- No path has stored to a slot of the variable. -/
def Trail.Idle (t : Trail) : Prop :=
  t.last ⊆ {none}

namespace Trail.Idle

variable {t t' : Trail}

theorem allows (h : t.Idle) (x : String) (names : List String) : t.allows x names = true := by
  have hloads : t.loads = true := by
    rw [loads, decide_eq_true_eq]
    intro k? hk
    exact Or.inl (Finset.mem_singleton.mp (h hk))
  rw [Trail.allows, hloads, Bool.or_true]

theorem join (h : t.Idle) (h' : t'.Idle) : (t.join t').Idle :=
  Finset.union_subset h h'

theorem around (h : t.Idle) (turn : Trail → Trail) (hturn : (turn t).Idle) : (t.around turn).Idle :=
  Finset.union_subset h hturn

end Trail.Idle

theorem Assignment.trail_of_ne {x : String} {a : Assignment} (h : a.target.name ≠ x) (t : Trail) :
    a.trail x t = t := by
  rw [trail]
  cases htarget : a.target with
  | element name index ty => rfl
  | var name shape =>
    rw [htarget] at h
    exact if_neg h

mutual

/-- A variable that is not bound is not stored to, and so its loads are settled. -/
theorem idle_statement (x : String) (st : Stmt) {t : Trail} (hx : x ∉ st.binds) (ht : t.Idle) :
    (st.trail x t).Idle ∧ st.settled x t := by
  cases st with
  | expr e => exact ⟨ht, ht.allows _ _⟩
  | assign a =>
    refine ⟨?_, ht.allows _ _⟩
    cases htarget : a.target with
    | element name index ty =>
      show (a.trail x t).Idle
      rw [Assignment.trail, htarget]
      exact ht
    | var name shape =>
      have hbinds : x ∉ a.binds := hx
      rw [Assignment.binds_of_var htarget, List.mem_singleton] at hbinds
      show (a.trail x t).Idle
      rw [Assignment.trail_of_ne (Ne.symm hbinds)]
      exact ht
  | array ty name size =>
    rw [Stmt.binds, List.mem_singleton] at hx
    rw [Stmt.trail, if_neg (Ne.symm hx)]
    exact ⟨ht, ht.allows _ _⟩
  | output e => exact ⟨ht, ht.allows _ _⟩
  | input target ty => exact ⟨ht, ht.allows _ _⟩
  | ifThen condition body rest =>
    rw [Stmt.binds, List.mem_append, not_or] at hx
    obtain ⟨hbody, hbodySettled⟩ := idle_all x body hx.1 ht
    obtain ⟨hrest, hrestSettled⟩ :=
      idle_elsePart x rest (t := { t with count := (trailAll x t body).count }) hx.2 ht
    refine ⟨hbody.join hrest, ?_⟩
    simp only [Stmt.settled, ht.allows, hbodySettled, hrestSettled, Bool.and_self]
  | whileLoop condition body =>
    have hhead := ht.around (fun t => trailAll x t body) (idle_all x body hx ht).1
    obtain ⟨hbody, hbodySettled⟩ := idle_all x body hx hhead
    refine ⟨hbody, ?_⟩
    simp only [Stmt.settled, hbodySettled, hbody.allows, Bool.and_self]
  | forLoop init bound body =>
    rw [Stmt.binds, List.mem_cons, not_or] at hx
    have hinit := Assignment.trail_of_ne (a := init) (Ne.symm hx.1)
    have hstep : ∀ t, (Lower.counterStep init).trail x t = t :=
      Assignment.trail_of_ne (Ne.symm hx.1)
    have hhead := ht.around (fun t => trailAll x t body) (idle_all x body hx.2 ht).1
    obtain ⟨hbody, hbodySettled⟩ := idle_all x body hx.2 hhead
    simp only [Stmt.trail, Stmt.settled, hinit, hstep, ht.allows, hbodySettled, hbody.allows,
      Bool.and_self]
    exact ⟨hbody, trivial⟩
  | subroutine name params body ty => exact ⟨ht, rfl⟩
  | ret e => exact ⟨Finset.empty_subset _, ht.allows _ _⟩

theorem idle_all (x : String) (body : List Stmt) {t : Trail} (hx : x ∉ bindsAll body)
    (ht : t.Idle) : (trailAll x t body).Idle ∧ settledAll x t body := by
  cases body with
  | nil => exact ⟨ht, rfl⟩
  | cons st rest =>
    rw [bindsAll, List.mem_append, not_or] at hx
    obtain ⟨hst, hstSettled⟩ := idle_statement x st hx.1 ht
    obtain ⟨hrest, hrestSettled⟩ := idle_all x rest hx.2 hst
    refine ⟨hrest, ?_⟩
    rw [settledAll, hstSettled, hrestSettled, Bool.and_self]

theorem idle_elsePart (x : String) (part : ElsePart) {t : Trail} (hx : x ∉ part.binds)
    (ht : t.Idle) : (part.trail x t).Idle ∧ part.settled x t := by
  cases part with
  | none => exact ⟨ht, rfl⟩
  | body body => exact idle_all x body hx ht
  | elseIf condition body rest =>
    rw [ElsePart.binds, List.mem_append, not_or] at hx
    obtain ⟨hbody, hbodySettled⟩ := idle_all x body hx.1 ht
    obtain ⟨hrest, hrestSettled⟩ :=
      idle_elsePart x rest (t := { t with count := (trailAll x t body).count }) hx.2 ht
    refine ⟨hbody.join hrest, ?_⟩
    simp only [ElsePart.settled, ht.allows, hbodySettled, hrestSettled, Bool.and_self]

end

theorem Trail.enter_of_not_mem {x : String} (hx : x ∉ params.map Param.name) :
    Trail.enter x params = {} := by
  have hall : ∀ p ∈ params, p.name ≠ x := fun p hp heq => hx (List.mem_map.mpr ⟨p, hp, heq⟩)
  rw [enter]
  generalize ({} : Trail) = t
  induction params with
  | nil => rfl
  | cons p params ih =>
    rw [List.map_cons, List.mem_cons, not_or] at hx
    rw [List.foldl_cons, if_neg (hall p List.mem_cons_self)]
    exact ih hx.2 fun q hq => hall q (List.mem_cons_of_mem _ hq)

/-- A body is settled exactly if it is for every variable. -/
theorem settledBody_iff {body : List Stmt} :
    settledBody params body ↔ ∀ x, settledAll x (.enter x params) body := by
  rw [settledBody, List.all_eq_true]
  refine ⟨fun h x => ?_, fun h x _ => h x⟩
  by_cases hx : x ∈ params.map Param.name ++ bindsAll body
  · exact h x hx
  · rw [List.mem_append, not_or] at hx
    rw [Trail.enter_of_not_mem hx.1]
    exact (idle_all x body hx.2 (Finset.Subset.refl _)).2

end Pseudocode
