import Pseudocode.Proofs.Slots.Tracks

/-!
Trails through the code of a statement.

If the trail of a variable is right before a statement, and the statement is settled, then the loads
of the variable in its code find what has been stored last, and the trail is right behind it
(`trails_walk`).  Where two arms meet, a path has come through one of them.  Where a loop begins, a
path has come from before it or through a turn, and what a turn stores to last is there already
(`Trail.Piece.around`).
-/

namespace Pseudocode

variable {size condition : Expr}

namespace Trail

variable {t : Trail} {x : String} {names more : List String}

theorem allows_iff : t.allows x names ↔ (x ∈ names → t.loads) := by
  rw [allows, Bool.or_eq_true, decide_eq_true_eq, imp_iff_not_or]

theorem allows_append : t.allows x (names ++ more) ↔ t.allows x names ∧ t.allows x more := by
  simp only [allows_iff, List.mem_append, or_imp]

end Trail

namespace Lower

open Ir

variable {globals : List Global} {F : FunctionDraft} {scope : Scope} {x y : String} {t t' : Trail}
  {s s₁ s₂ s₃ s' : State} {d : List String} {names : List String} {v : Value} {u : Unit}

/-! ### Statements without bodies -/

/-- Code that only loads is passed if the loads are allowed. -/
theorem trails_reads (hs : SlotsNamed scope s.storage) (hopen : s.function.Open)
    (hallows : t.allows x names)
    (h : Fetching scope names s s') (happends : Appends s s') :
    TrailsCode x globals F scope t t s s' := by
  refine fun ht => ⟨ht.of_appends happends, fun d hd => Leads.of_within fun hwithin => ?_⟩
  have hext := (happends.within hopen hwithin).function
  refine (trails_fetching hs hopen h fun hx slot name ty hslot haddress last hlast => ?_).mono ?_
  · exact ht.loads hd hext (Trail.allows_iff.mp hallows hx) hslot haddress hlast
  · rintro d' rfl
    rw [h.storage]
    exact hd

/-- What is stored to is a place in an array, and no slot. -/
theorem trails_storeElement {k : Nat} {pty : Ir.Ty} (hopen : s.function.Open)
    (hv : v.Known s.function.visible)
    (h : Runs (store v (.register (Draft.tempName k) pty)) s u s') :
    TrailsCode x globals F scope t t s s' := by
  refine fun ht => ⟨ht.of_appends h.appends, fun d hd => ?_⟩
  obtain ⟨-, rfl⟩ := runs_store.1 h
  refine Leads.emit hopen ⟨by simp [lastWriteOf, Instr.loadsFrom?], fun _ => ?_⟩
  show Marks F x scope s.storage t (Instr.record _ d)
  rw [Instr.record_store _ _ hv.ne_null]
  exact hd.storeOther (Draft.not_slotOf_tempName x _) rfl

/-- **The trail goes on through an assignment.** -/
theorem trails_assign {a : Assignment} (hs : s.Tidy .any scope) (hF : F.Whole)
    (hopen : s.function.Open)
    (hallows : t.allows x (a.reads t)) (h : Runs (assign scope a) s u s') :
    TrailsCode x globals F scope t (a.trail x t) s s' := by
  unfold Assignment.trail
  unfold Assignment.reads at hallows
  cases runs_assign h with
  | string y shape htarget hty hsource hbuffer hsize hcopy =>
    simp only [htarget, if_pos hty, Trail.allows_append] at hallows ⊢
    have a₁ := hsource.appends
    have hs₁ := hs.of_appends a₁ (hs.sound.valueOf hsource).1
    have o₁ := a₁.open hopen
    obtain ⟨k₂, o₂⟩ := keeps_stringBuffer o₁ hbuffer
    have hs₂ := State.Tidy.slots_straight State.Tidy.isScalar_array (straight_stringBuffer hbuffer)
      hs₁.slots
    have a₃ := hsize.appends.trans hcopy.appends
    rw [hty]
    refine (trails_reads hs.slots hopen hallows.1 (OnlyFetches.valueOf scope _ _ _ _ _ hsource)
      a₁).trans (fun hwithin => k₂.within (a₃.within o₂ hwithin)) ?_
    refine (trails_stringBuffer hs₁.slots o₁ hallows.2 hbuffer).trans (a₃.within o₂) ?_
    have hfetching : Fetching scope [] _ s' :=
      (OnlyFetches.byteCount _ _ _ _ hsize).trans (OnlyFetches.memcpy _ _ _ _ _ _ hcopy)
    exact trails_reads hs₂.1 o₂ rfl hfetching a₃
  | scalar y shape htarget hty hvalue hslot hstore =>
    simp only [htarget, if_neg hty, Trail.allows_append] at hallows ⊢
    obtain ⟨hs₁, hvalueKnown, hvalueTy⟩ := hs.sound.valueOf hvalue
    have a₁ := hvalue.appends
    have o₁ := a₁.open hopen
    obtain ⟨k₂, o₂⟩ := keeps_scalarSlot o₁ hslot
    have a₃ := hstore.appends
    refine (trails_reads hs.slots hopen hallows.1 (OnlyFetches.valueOf scope _ _ _ _ _ hvalue)
      a₁).trans (fun hwithin => k₂.within (a₃.within o₂ hwithin)) ?_
    exact trails_store (hs.of_appends a₁ hs₁) hF o₁ hvalueKnown (slotRun_scalar hvalueTy hslot)
      hvalueTy hstore
  | element y index ty htarget hty hvalue haddress hstore =>
    simp only [htarget, Trail.allows_append] at hallows ⊢
    have a₂ := hvalue.appends
    obtain ⟨hs₂, hvalueKnown, -⟩ := hs.sound.valueOf hvalue
    have a₃ := haddress.appends
    have a₄ := hstore.appends
    have o₂ := a₂.open hopen
    have hindex : ∀ want, OnlyFetches scope (y :: index.reads) (fetch (operand scope index) want) :=
      OnlyFetches.fetch_of_part (OnlyFetches.operand_part scope index) (List.subset_cons_self _ _)
    obtain ⟨hfetching, place, pty, rfl⟩ :=
      OnlyFetches.elementAddress hindex List.mem_cons_self haddress
    refine (trails_reads hs.slots hopen hallows.1 (OnlyFetches.valueOf scope _ _ _ _ _ hvalue)
      a₂).trans ((a₃.trans a₄).within o₂) ?_
    refine (trails_reads (hs.of_appends a₂ hs₂).slots o₂ hallows.2 hfetching a₃).trans
      (a₄.within (a₃.open o₂)) ?_
    exact trails_storeElement (a₃.open o₂) (hvalueKnown.mono (hs₂.sees a₃)) hstore

theorem trails_declareArray {ty : Ty} (hs : s.Tidy .any scope) (hF : F.Whole)
    (hopen : s.function.Open)
    (hallows : t.allows x size.reads) (h : Runs (declareArray scope ty y size) s u s') :
    TrailsCode x globals F scope t (if y = x then t.store (.array ty) else t) s s' := by
  obtain ⟨count, wide, memory, first, address, t', s₁, s₂, s₃, s₄, s₅, hcount, hwide, hmalloc, ht',
    hcast, hslot, hstore⟩ := runs_declareArray h
  obtain ⟨-, -, -, hs₄, hfirstKnown⟩ := hs.sound.arrayMemory hcount hwide hmalloc hcast
  have a₄ := (hcount.appends.trans hwide.appends).trans (hmalloc.appends.trans hcast.appends)
  have hfetching : Fetching scope size.reads s s₄ :=
    ((OnlyFetches.valueOf scope _ _ _ _ _ hcount).trans (OnlyFetches.cast _ _ _ _ _ _ hwide)).trans
      ((OnlyFetches.malloc _ _ _ _ hmalloc).trans (OnlyFetches.cast _ _ _ _ _ _ hcast))
  have o₄ := a₄.open hopen
  obtain ⟨k₅, o₅⟩ := SlotRun.straight hslot |>.keeps o₄
  have hkind : kindTy? (.array ty) = some (.ptr t') := by rw [kindTy?, ht']; rfl
  refine (trails_reads hs.slots hopen hallows hfetching a₄).trans
    (fun hwithin => k₅.within (hstore.appends.within o₅ hwithin)) ?_
  exact trails_store (hs.of_appends a₄ hs₄) hF o₄ hfirstKnown hslot hkind hstore

theorem trails_input {target : Target} (hs : s.Tidy .any scope) (hopen : s.function.Open)
    (hallows : t.allows x (target.reads t)) (h : Runs (input scope target) s u s') :
    TrailsCode x globals F scope t t s s' := by
  have happends := h.appends
  cases target with
  | element name index ty =>
    refine trails_reads hs.slots hopen hallows (OnlyFetches.input (by simp) ?_ h) happends
    rintro name' index' ty' heq
    obtain ⟨rfl, rfl, -⟩ := Target.element.inj heq
    exact List.Subset.refl _
  | var name shape =>
    -- The trail is that of `x`, and says nothing about other variables.
    by_cases hname : name = x
    · subst hname
      refine fun ht => trails_reads hs.slots hopen hallows (OnlyFetches.input ?_ (by simp) h)
        happends ht
      rintro name' shape' slot heq hslot hkind
      obtain ⟨rfl, -⟩ := Target.var.inj heq
      obtain ⟨k, hk⟩ := ht.stands_of_slot hslot
      simp [Target.reads, Trail.buffer, hk, hkind]
    · have hother : t.allows x [name] :=
        Trail.allows_iff.mpr fun hx => absurd (List.mem_singleton.mp hx) (Ne.symm hname)
      refine trails_reads hs.slots hopen hother (OnlyFetches.input ?_ (by simp) h) happends
      rintro name' shape' slot heq - -
      obtain ⟨rfl, -⟩ := Target.var.inj heq
      exact List.mem_singleton.mpr rfl

/-! ### Parameters -/

/-- Where a subroutine begins, its parameters are stored. -/
theorem trails_storeParams {pairs : List (Param × Ir.Param)} (hs : s.Tidy .any scope) (hF : F.Whole)
    (hopen : s.function.Open) (hnumeric : ∀ pair ∈ pairs, pair.1.ty.isNumeric)
    (hparams : ∀ pair ∈ pairs, pair.2 ∈ s.function.params)
    (h : Runs (storeParams scope pairs) s u s')
    (ht' : t' = (pairs.map Prod.fst).foldl
      (fun t p => if p.name = x then t.store (.scalar p.ty) else t) t) :
    TrailsCode x globals F scope t t' s s' := by
  subst ht'
  induction pairs generalizing s t with
  | nil =>
    obtain rfl := runs_forM_nil.1 h
    exact .refl t _
  | cons pair pairs ih =>
    obtain ⟨s₁, s₂, t', address, hone⟩ :=
      hs.storeParam hopen (hnumeric pair List.mem_cons_self) hparams h
    exact (trails_store hs hF hopen hone.known hone.slot hone.ty hone.store).trans
      hone.restKeeps.within
      (ih hone.tidy hone.opened (fun other hother => hnumeric other (List.mem_cons_of_mem _ hother))
        hone.passed hone.rest)

/-! ### Conditionals -/

theorem Tracks.joined (ht₁ : Tracks x scope s₂ t) (ht₂ : Tracks x scope s₃ t')
    (hstarts : s₂.function.slotsOf x <+: s₃.function.slotsOf x)
    (hprologue : s'.function.prologue = s₃.function.prologue)
    (hstorage : s'.storage = s₃.storage.join s₂.storage) : Tracks x scope s' (t.join t') := by
  refine ⟨?_, ?_⟩
  · rw [FunctionDraft.slotsOf_congr hprologue]
    exact ht₂.count
  · rw [FunctionDraft.slotsOf_congr hprologue, hstorage, Storage.getElem?_join]
    have htheirs := ht₁.stands.mono hstarts
    have hours := ht₂.stands
    cases hfound : s₃.storage[(⟨x, scope⟩ : Symbol)]? with
    | none =>
      rw [hfound] at hours
      have hnone : t'.slot? = none := by
        cases hslot : t'.slot? with
        | none => rfl
        | some stands => rw [hslot] at hours; exact hours.elim
      simp only [Trail.join, hnone, Option.none_or]
      cases htheir : s₂.storage[(⟨x, scope⟩ : Symbol)]? with
      | none =>
        rw [htheir] at htheirs
        exact htheirs
      | some their =>
        rw [htheir] at htheirs
        exact htheirs.of_slot rfl rfl
    | some our =>
      rw [hfound] at hours
      obtain ⟨k, hk⟩ := ht₂.stands_of_slot hfound
      simp only [Trail.join, hk, Option.some_or]
      rw [hk] at hours
      refine hours.of_slot ?_ ?_ <;> (rw [Slot.meet.eq_def]; split <;> [split; skip]) <;> rfl

namespace Marks

variable {ours theirs : Storage}

theorem join_ours (h : Marks F x scope ours t' d) :
    Marks F x scope (ours.join theirs) (t.join t') d := by
  obtain ⟨k?, hk, hlast⟩ := h.last
  refine ⟨⟨k?, Finset.mem_union_right _ hk, hlast⟩, fun slot n hslot hlength => ?_⟩
  obtain ⟨⟨our, hour, -, hlength'⟩, -⟩ := join_length hslot hlength
  exact h.sized our n hour hlength'

theorem join_theirs (h : Marks F x scope theirs t d) :
    Marks F x scope (ours.join theirs) (t.join t') d := by
  obtain ⟨k?, hk, hlast⟩ := h.last
  refine ⟨⟨k?, Finset.mem_union_left _ hk, hlast⟩, fun slot n hslot hlength => ?_⟩
  obtain ⟨-, their, htheir, -, hlength'⟩ := join_length hslot hlength
  exact h.sized their n htheir hlength'

theorem forget {storage storage' : Storage} (h : Marks F x scope storage t d)
    (hlast : t.last ⊆ t'.last) : Marks F x scope (storage'.forgetLengths scope) t' d := by
  obtain ⟨k?, hk, hat⟩ := h.last
  refine ⟨⟨k?, hlast hk, hat⟩, fun slot n hslot hlength => ?_⟩
  rw [Storage.getElem?_forgetLengths] at hslot
  obtain ⟨found, -, rfl⟩ := Option.map_eq_some_iff.mp hslot
  simp [Slot.forget] at hlength

end Marks

/-- Code of what follows an arm.  It ends by going on where the arms do. -/
def TrailsRest (x : String) (globals : List Global) (F : FunctionDraft) (scope : Scope)
    (t t' : Trail) (join : Nat) (s s' : State) : Prop :=
  Tracks x scope s t → Tracks x scope s' t' ∧ ∀ d, Marks F x scope s.storage t d →
    LeadsTo (lastWriteOf x) F globals s s' join d (Marks F x scope s'.storage t')

/-- **The trail of a conditional joins those of its arms.** -/
theorem trails_arm {join? : Option Nat} {body : Lowering Unit} {rest : ElsePart} {truth : Value}
    {k : FunctionDraft.Fork}
    {left : Trail}
    (h : ArmRun scope condition join? body (elsePart? scope rest) s s' truth s₁ s₂ s₃ k)
    (hF : F.Whole)
    (hs : s.Tidy .any scope) (hopen : s.function.Open) (hcondition : t.allows x condition.reads)
    (hbody : TrailsCode x globals F scope t left (s₁.moved (k.function.switchTo k.body) s₁.storage)
      s₂)
    (hrest : (elsePart? scope rest).isSome →
      TrailsRest x globals F scope { t with count := left.count }
      (rest.trail x { t with count := left.count }) k.join (s₁.otherwise s₂ k) s₃)
    (hjoin : ∀ join, join? = some join → 0 < join ∧ join < s.function.blocks.size) :
    TrailsRest x globals F scope t (left.join (rest.trail x { t with count := left.count })) k.join
    s s' := by
  intro ht
  have a₁ := h.condition.appends
  have hstorage : s'.storage = s₃.storage.join s₂.storage := by rw [h.result]; rfl
  have hprologue : s'.function.prologue = s₃.function.prologue := by
    rw [h.result]
    show (if join?.isNone then _ else _ : FunctionDraft).prologue = _
    split <;> rfl
  have htest : TrailsCode x globals F scope t t s s₁ :=
    trails_reads hs.slots hopen hcondition (OnlyFetches.truthOf scope _ _ _ _ h.condition) a₁
  obtain ⟨ht₁, hleads₁⟩ := htest ht
  have htBody : Tracks x scope (s₁.moved (k.function.switchTo k.body) s₁.storage) t := by
    refine ht₁.of_eq ?_ rfl rfl rfl
    show k.function.prologue = _
    rw [h.fork]
    exact FunctionDraft.fork_prologue s₁.function truth join? (elsePart? scope rest).isSome
  obtain ⟨ht₂, hleads⟩ := hbody htBody
  have hprologue₂ : (s₂.function.fallTo k.join).prologue = s₂.function.prologue := by
    rw [FunctionDraft.fallTo_of_open h.ran.finish]
    rfl
  -- What follows begins with the slots from before the body, but those that the body has reserved
  -- are there.
  have htOther : Tracks x scope (s₁.otherwise s₂ k) { t with count := left.count } := by
    have hslots : (s₁.otherwise s₂ k).function.slotsOf x = s₂.function.slotsOf x :=
      FunctionDraft.slotsOf_congr hprologue₂ x
    refine ⟨hslots ▸ ht₂.count, ?_⟩
    rw [hslots]
    exact ht₁.stands.mono (FunctionDraft.slotsOf_prefix_of_extends h.thenKeeps.grows.toExtends x)
  have halone : (elsePart? scope rest) = none → rest.trail x { t with count := left.count } =
      { t with count := left.count } := by
    cases rest with
    | none => exact fun _ => rfl
    | _ => simp [elsePart?]
  have hright : Tracks x scope s₃ (rest.trail x { t with count := left.count }) := by
    cases hrest? : elsePart? scope rest with
    | none =>
      rw [halone hrest?, h.alone hrest?]
      exact htOther.of_eq rfl rfl rfl rfl
    | some _ => exact (hrest (by rw [hrest?]; rfl) htOther).1
  have hstarts : s₂.function.slotsOf x <+: s₃.function.slotsOf x := by
    rw [← FunctionDraft.slotsOf_congr hprologue₂]
    exact FunctionDraft.slotsOf_prefix_of_extends h.extends_fallTo x
  refine ⟨ht₂.joined hright hstarts hprologue hstorage, fun d hd => ?_⟩
  rw [hstorage]
  refine h.leadsTo (T := Marks F x scope s₁.storage t) hjoin hF.named (hleads₁ d hd) ?_ ?_ ?_
  · exact fun d hd => (hleads d hd).mono fun _ hd' => hd'.join_theirs
  · exact fun hsome d hd => ((hrest hsome htOther).2 d ⟨hd.last, hd.sized⟩).mono
      fun _ hd' => hd'.join_ours
  · intro hnone d hd
    have hd' : Marks F x scope s₁.storage { t with count := left.count } d := ⟨hd.last, hd.sized⟩
    rw [halone hnone, h.alone hnone]
    exact hd'.join_ours

/-! ### Loops -/

/-- **The trail of a loop is that of a turn, from where a turn may begin.** -/
theorem trails_loop {kind : String} {body step : Lowering Unit} {truth : Value}
    {start between left : Trail}
    (h : LoopRun scope kind body step condition s s' truth s₁ s₂ s₃) (hF : F.Whole)
    (hs₂ : s₂.Tidy .any scope) (hbody : TrailsCode x globals F scope start between
      (s.moved (s.function.enter kind) (s.storage.forgetLengths scope)) s₁)
    (hstep : TrailsCode x globals F scope between left s₁ s₂)
    (hcondition : left.allows x condition.reads)
    (hstart : start.slot? = t.slot? ∧ start.count = t.count) (hfirst : t.last ⊆ start.last)
    (hagain : left.last ⊆ start.last) : TrailsCode x globals F scope t left s s' := by
  intro ht
  have a₃ := h.condition.appends
  have ht₀ : Tracks x scope (s.moved (s.function.enter kind) (s.storage.forgetLengths scope))
    start := by
    refine ⟨?_, ?_⟩
    · rw [hstart.2]
      exact ht.count
    · rw [hstart.1]
      show Stands (s.function.slotsOf x)
        (s.storage.forgetLengths scope)[(⟨x, scope⟩ : Symbol)]? t.slot?
      rw [Storage.getElem?_forgetLengths]
      have hstands := ht.stands
      cases hslot : s.storage[(⟨x, scope⟩ : Symbol)]? with
      | none =>
        rw [hslot] at hstands
        exact hstands
      | some slot =>
        rw [hslot] at hstands
        rw [Option.map_some, if_pos rfl]
        exact hstands.of_slot rfl rfl
  -- A turn: the body, the step, and the condition.
  have hturn : TrailsCode x globals F scope start left
      (s.moved (s.function.enter kind) (s.storage.forgetLengths scope)) s₃ :=
    (hbody.trans h.stepKeeps.within hstep).trans (a₃.within h.stepOpen)
      (trails_reads hs₂.slots h.stepOpen hcondition (OnlyFetches.truthOf scope _ _ _ _ h.condition)
        a₃)
  obtain ⟨ht₃, hleads⟩ := hturn ht₀
  have hstorage : s'.storage = s₃.storage := by rw [h.result]; rfl
  refine ⟨ht₃.of_eq (by rw [h.result]; rfl) (by rw [hstorage]) rfl rfl, fun d hd => ?_⟩
  rw [hstorage]
  exact h.leads (T := Marks F x scope (s.storage.forgetLengths scope) start) hF.named
    (hd.forget hfirst) (fun _ hd => hd.forget hagain) hleads

/-! ### Statements -/

theorem trails_leaveWith {e : Expr} (hs : s.Tidy .any scope) (hopen : s.function.Open)
    (hallows : t.allows x e.reads) (h : Runs (leaveWith scope e) s u s') :
    TrailsCode x globals F scope t { t with last := ∅ } s s' := by
  intro ht
  obtain ⟨sub, value, s₁, -, hvalue, rfl⟩ := runs_leaveWith h
  have a₁ := hvalue.appends
  have hreads : TrailsCode x globals F scope t t s s₁ :=
    trails_reads hs.slots hopen hallows (OnlyFetches.valueOf scope _ _ _ _ _ hvalue) a₁
  obtain ⟨ht₁, hleads⟩ := hreads ht
  exact ⟨ht₁.of_eq rfl rfl rfl rfl, fun d hd => Leads.returns (a₁.open hopen) (hleads d hd)⟩

theorem reads_counterTest {init : Assignment} {bound test : Expr}
    (h : Runs (counterTest init bound) s test s') :
    test.reads = init.target.name :: bound.reads ∧ s' = s := by
  obtain ⟨⟨ty, -, rfl⟩, rfl⟩ := runs_counterTest h
  exact ⟨rfl, rfl⟩

/-- **The trail of a variable goes on through a statement**, if the statement is settled. -/
theorem trails_walk (globals : List Global) (hF : F.Whole) : Walk
    (fun scope st s s' => ∀ env t, st.Agrees env scope → st.settled x t → s.Tidy .any scope →
      TrailsCode x globals F scope t (st.trail x t) s s')
    (fun scope body s s' => ∀ env t, allAgree env scope body → settledAll x t body →
      s.Tidy .any scope → TrailsCode x globals F scope t (trailAll x t body) s s')
    fun scope part join s s' => ∀ env t, part.Agrees env scope → part.settled x t →
    s.Tidy .any scope →
      0 < join ∧ join < s.function.blocks.size →
      TrailsRest x globals F scope t (part.trail x t) join s s' where
  logged _ h env t hagrees hsettled hs ht :=
    h env t hagrees hsettled (hs.of_same (hs.sound.logged _) hs.slots rfl (.refl _))
      (ht.of_eq rfl rfl rfl rfl)
  expr hopen h env t _ hsettled hs :=
    trails_reads hs.slots hopen hsettled (OnlyFetches.operand_part _ _ _ _ _ h).1 h.appends
  assign hopen h env t _ hsettled hs := trails_assign hs hF hopen hsettled h
  array hopen h env t _ hsettled hs := trails_declareArray hs hF hopen hsettled h
  output hopen h env t _ hsettled hs :=
    trails_reads hs.slots hopen hsettled (OnlyFetches.output _ _ _ _ _ h) h.appends
  input hopen h env t _ hsettled hs := trails_input hs hopen hsettled h
  ifThen := by
    intro scope condition body rest s s' truth s₁ s₂ s₃ k hopen harm hbody hrest env t hagrees
      hsettled hs ht
    obtain ⟨-, -, hagreeBody, hagreeRest⟩ := hagrees
    simp only [Stmt.settled, Bool.and_eq_true] at hsettled
    have hsBody := hs.armBody harm
    have hs₂ := block_tidy_any hagreeBody hsBody harm.open_then harm.body
    obtain ⟨ht', hleads⟩ :=
      trails_arm harm hF hs hopen hsettled.1.1 (hbody env t hagreeBody hsettled.1.2 hsBody)
      (fun hsome => hrest hsome _ _ hagreeRest hsettled.2 (hs.armOtherwise harm hs₂ hsome)
        (harm.target_otherwise (by simp))) (by simp) ht
    exact ⟨ht', fun d hd => harm.leads (hleads d hd)⟩
  whileLoop := by
    intro scope condition body s s' truth s₁ s₃ hloop hbody env t hagrees hsettled hs
    simp only [Stmt.settled, Bool.and_eq_true] at hsettled
    have hs₀ := hs.loopBody "while"
    exact trails_loop hloop hF (block_tidy_any hagrees.2.2 hs₀ hloop.open_body hloop.body)
      (hbody env _ hagrees.2.2 hsettled.1 hs₀) (.refl _ _) hsettled.2
      ⟨rfl, rfl⟩ Finset.subset_union_left ((piece_all x body).around t)
  forLoop := by
    intro scope init bound test body s s₀ s' truth s₁ s₂ s₃ hopen hinit htest hloop hbody env t
      hagrees hsettled hs
    obtain ⟨-, -, -, -, -, hagreeBody⟩ := hagrees
    simp only [Stmt.settled, Bool.and_eq_true] at hsettled
    obtain ⟨⟨⟨hsettledInit, hsettledBody⟩, hsettledStep⟩, hsettledTest⟩ := hsettled
    have hs₀ := (hs.assign hinit).loopBody "for"
    have hs₁ := block_tidy_any hagreeBody hs₀ hloop.open_body hloop.body
    refine (trails_assign hs hF hopen hsettledInit hinit).trans hloop.keeps.within ?_
    exact trails_loop hloop hF (hs₁.assign hloop.step) (hbody _ _ hagreeBody hsettledBody hs₀)
      (trails_assign hs₁ hF hloop.bodyOpen hsettledStep hloop.step)
      (by rw [(reads_counterTest htest).1]; exact hsettledTest) ⟨rfl, rfl⟩ Finset.subset_union_left
      (((piece_all x body).seq (piece_assignment x (counterStep init))).around _)
  subroutine := by
    intro scope name params body ty s s' hopen h _ env t _ _ hs ht
    obtain ⟨-, hfunction⟩ := keeps_subroutine scope (block_keeps (.subroutine name) body) h
    have hstorage := hs.storage_subroutine x h
    exact ⟨ht.of_eq (by rw [hfunction]) hstorage rfl rfl, fun d hd =>
      Leads.still (by rw [hfunction]) (by rw [hfunction]) (hd.of_eq hstorage)⟩
  ret hopen h env t _ hsettled hs := trails_leaveWith hs hopen hsettled h
  nil _ t _ _ _ := TrailsCode.refl t _
  cons := by
    intro scope st rest s s₁ s' hopen hone k₁ o₁ hrest k₂ h₁ h₂ env t hagree hsettled hs
    rw [settledAll, Bool.and_eq_true] at hsettled
    have hs₁ := statement_tidy env scope st hagree.1 (fun r _ => goodRoutine_any r.1 r.2) hs
      hopen hone
    exact (h₁ env t hagree.1 hsettled.1 hs).trans k₂.within (h₂ _ _ hagree.2 hsettled.2 hs₁)
  body := by
    intro scope body join s s₁ hopen hblock k₁ o₁ hbody env t hagrees hsettled hs hjoin ht
    obtain ⟨ht₁, hleads⟩ := hbody env t hagrees hsettled hs ht
    refine ⟨ht₁.of_eq ?_ rfl rfl rfl, fun d hd => (hleads d hd).fallTo hF.named k₁ o₁ hjoin⟩
    show (s₁.function.fallTo join).prologue = _
    rw [FunctionDraft.fallTo_of_open o₁]
    rfl
  elseIf := by
    rintro scope condition body rest _ s s' truth s₁ s₂ s₃ k hopen rfl harm hbody hrest env t
      hagrees hsettled hs hjoin
    obtain ⟨-, -, hagreeBody, hagreeRest⟩ := hagrees
    simp only [ElsePart.settled, Bool.and_eq_true] at hsettled
    have hsBody := hs.armBody harm
    have hs₂ := block_tidy_any hagreeBody hsBody harm.open_then harm.body
    have hgiven : ∀ join, some k.join = some join → 0 < join ∧ join < s.function.blocks.size := by
      rintro _ ⟨⟩
      exact hjoin
    exact trails_arm harm hF hs hopen hsettled.1.1 (hbody env t hagreeBody hsettled.1.2 hsBody)
      (fun hsome => hrest hsome _ _ hagreeRest hsettled.2 (hs.armOtherwise harm hs₂ hsome)
        (harm.target_otherwise hgiven)) hgiven

end Lower

end Pseudocode
