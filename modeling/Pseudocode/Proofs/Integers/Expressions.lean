import Pseudocode.Proofs.Integers.Code
import Pseudocode.Proofs.Integers.Fragment

/-!
Code for integer expressions.

An operand is a word, the truth of a comparison, or the address of a variable.  Fetching it makes a
word of it: a truth value is widened and a variable is loaded.  Operators work on words that have
been fetched, so the two things to be said of each of them are which instruction it becomes and that
the instruction does what the operator means.
-/

namespace Pseudocode.Lower

open Ir

variable {m : Module} {φ : Frame} {v left right : Value} {w a b : Int32} {i : Instr}
  {code lhs rhs : Lowering Operand} {holds : Module → Frame → Value → Int32 → Prop} {op : BinaryOp}

/-! ### What code gives -/

/-- A settled value that is a word. -/
def IsWord (k : Nat) (v : Value) : Prop :=
  v.ty = .i32 ∧ v.Settled k

/-- A settled value that is a truth value. -/
def IsTruth (k : Nat) (v : Value) : Prop :=
  v.ty = .i1 ∧ v.Settled k

/-- The value is this word. -/
def HoldsWord (m : Module) (φ : Frame) (v : Value) (w : Int32) : Prop :=
  φ.value m v = some (.word w)

/-- The value is the truth value that this word stands for. -/
def HoldsTruth (m : Module) (φ : Frame) (v : Value) (w : Int32) : Prop :=
  ∃ b, φ.value m v = some (.bit b) ∧ w = truthWord b

/-- The value says whether this word is not zero. -/
def TellsNonzero (m : Module) (φ : Frame) (v : Value) (w : Int32) : Prop :=
  φ.value m v = some (.bit (w ≠ 0))

/-- An operand that can be fetched later. -/
def Operand.Ready (k : Nat) : Operand → Prop
  | .value v => IsWord k v ∨ IsTruth k v
  | .address ptr => ptr.ty = .ptr .i32 ∧ ptr.Settled k

/-- What is fetched of the operand is this word. -/
def Operand.Holds (m : Module) (φ : Frame) : Operand → Int32 → Prop
  | .value v, w => (v.ty = .i32 → HoldsWord m φ v w) ∧ (v.ty = .i1 → HoldsTruth m φ v w)
  | .address ptr, w => ∃ j, φ.value m ptr = some (.cell j) ∧ φ.cells[j]? = some (some (.word w))

/-- Code for an operand. -/
abbrev OperandCode (code : Lowering Operand) (s : State) (value : Store → Option Int32) : Prop :=
  CodeFor code s value Operand.Ready Operand.Holds

/-- Code for a word. -/
abbrev WordCode (code : Lowering Value) (s : State) (value : Store → Option Int32) : Prop :=
  CodeFor code s value IsWord HoldsWord

/-- Code for a comparison. -/
abbrev TruthCode (code : Lowering Value) (s : State) (value : Store → Option Int32) : Prop :=
  CodeFor code s value IsTruth HoldsTruth

theorem HoldsTruth.tells (h : HoldsTruth m φ v w) : TellsNonzero m φ v w := by
  obtain ⟨b, hb, rfl⟩ := h
  rw [TellsNonzero, hb]
  cases b <;> rfl

section

variable {s : State} {value l r : Store → Option Int32} {bound : String → Prop}

/-! ### Fetching -/

theorem runs_convert_word (h : v.ty = .i32) : Runs (convert v .int) s v s := by
  refine runs_bind.2 ⟨.i32, s, runs_irTy.2 ⟨rfl, rfl⟩, ?_⟩
  rw [if_pos h]
  exact runs_pure.2 ⟨rfl, rfl⟩

theorem runs_convert_truth (h : v.ty = .i1) :
    Runs (convert v .int) s (.register s.next .i32) (s.emit [.cast s.next .zext v .i32]) := by
  refine runs_bind.2 ⟨.i32, s, runs_irTy.2 ⟨rfl, rfl⟩, ?_⟩
  rw [if_neg (by rw [h]; decide), h]
  exact runs_cast.2 ⟨rfl, rfl⟩

theorem nextTemp_emit_one (s : State) {r : String × Ir.Ty} (h : i.result? = some r) :
    (s.emit [i]).function.nextTemp = s.function.nextTemp + 1 := by
  show s.function.nextTemp + (results [i]).length = _
  simp [results, h]

theorem isWord_next (s : State) {r : String × Ir.Ty} (h : i.result? = some r) :
    IsWord (s.emit [i]).function.nextTemp (.register s.next .i32) := by
  rw [nextTemp_emit_one s h]
  exact ⟨rfl, Value.Settled.next _ _⟩

theorem isTruth_next (s : State) {r : String × Ir.Ty} (h : i.result? = some r) :
    IsTruth (s.emit [i]).function.nextTemp (.register s.next .i1) := by
  rw [nextTemp_emit_one s h]
  exact ⟨rfl, Value.Settled.next _ _⟩

theorem value_put (m : Module) (φ : Frame) (name : String) (t : Ir.Ty) (d : Datum) :
    (φ.put name d).value m (.register name t) = some d :=
  if_pos rfl

theorem fetch_code (h : OperandCode code s value) : WordCode (fetch code .int) s value := by
  have hvalue : value = fun σ => (value σ).bind some := by
    funext σ
    rw [Option.bind_fun_some]
  rw [hvalue]
  refine h.bind ?_
  intro o is hready
  cases o with
  | value v =>
    rcases hready with ⟨hty, hsettled⟩ | ⟨hty, -⟩
    · refine ⟨v, [], ?_, ?_, ?_⟩
      · rw [State.emit_nil]
        exact runs_convert_word hty
      · rw [State.emit_nil]
        exact ⟨hty, hsettled⟩
      · intro m F σ φ w _ _ hholds
        exact Computes.nothing (hholds.1 hty)
    · refine ⟨_, _, runs_convert_truth hty, isWord_next _ rfl, ?_⟩
      intro m F σ φ w _ _ hholds
      obtain ⟨b, hb, rfl⟩ := hholds.2 hty
      refine Computes.result ?_ (value_put m φ _ .i32 (.word (truthWord b)))
      simp only [Instr.exec, hb]
      rfl
  | address ptr =>
    obtain ⟨hty, -⟩ := hready
    refine ⟨.register (s.emit is).next .i32, [.load (s.emit is).next .i32 ptr], ?_,
      isWord_next _ rfl, ?_⟩
    · exact runs_bind.2 ⟨_, _, runs_load.2 ⟨.i32, hty, rfl, rfl⟩, runs_convert_word rfl⟩
    · intro m F σ φ w _ _ hholds
      obtain ⟨j, hj, hcell⟩ := hholds
      refine Computes.result ?_ (value_put m φ _ .i32 (.word w))
      simp only [Instr.exec, Frame.cell?, hj, Option.bind_eq_bind, Option.bind_some, hcell]
      rfl

/-! ### Operators -/

/-- Two operands are fetched, one after the other, and then something is made of them. -/
theorem operands_code (hl : ∀ s : State, s.Integral bound → OperandCode lhs s l)
    (hr : ∀ s : State, s.Integral bound → OperandCode rhs s r)
    {finish : Value → Value → Lowering Value}
    {ready : Nat → Value → Prop} {apply : Int32 → Int32 → Option Int32}
    (hfinish : ∀ (s : State) (left right : Value), left.ty = .i32 →
      ∃ v is, Runs (finish left right) s v (s.emit is) ∧
      ready (s.emit is).function.nextTemp v ∧ ∀ (m : Module) (φ : Frame) (a b : Int32),
      HoldsWord m φ left a →
        HoldsWord m φ right b →
        Computes m is s.function.nextTemp φ (apply a b) fun φ' => holds m φ' v)
    (hs : s.Integral bound) :
    CodeFor (do
        let left ← fetch lhs .int
        let right ← fetch rhs .int
        finish left right) s (fun σ => (l σ).bind fun a => (r σ).bind (apply a)) ready holds := by
  refine (fetch_code (hl s hs)).bind ?_
  rintro left is ⟨hty, hsettled⟩
  obtain ⟨right, js, hrun, -, hcode⟩ := fetch_code (hr (s.emit is) (hs.emit is))
  obtain ⟨v, ks, hrunEnd, hready, hcodeEnd⟩ := hfinish ((s.emit is).emit js) left right hty
  rw [State.emit_emit (s.emit is)] at hrunEnd hready
  refine ⟨v, js ++ ks, runs_bind.2 ⟨right, _, hrun, hrunEnd⟩, hready, ?_⟩
  intro m F σ φ a hF hφ hleft
  refine (hcode m F σ φ hF hφ).bind ((s.emit is).nextTemp_le js) ?_
  intro φ' b _ hkeeps hright
  exact hcodeEnd m φ' a b ((hsettled.value_eq hkeeps m).trans hleft) hright

theorem result?_arithOp {arithOp : ArithOp} (h : arithOp? .int op = some arithOp) (a b : Int32) :
    arithOp.result? a b = op.result? a b := by
  cases op <;> simp only [arithOp?, Option.some.injEq, reduceCtorEq] at h <;> subst h <;> rfl

theorem result?_intPred {pred : IntPred} (h : intPred? op = some pred) (a b : Int32) :
    op.result? a b = some (truthWord (pred.holds a b)) := by
  cases op <;> simp only [intPred?, Option.some.injEq, reduceCtorEq] at h <;> subst h <;> rfl

theorem word?_of_holds (h : HoldsWord m φ v w) : φ.word? m v = some w := by
  rw [Frame.word?, h]

theorem arith_computes (op : ArithOp) (hleft : HoldsWord m φ left a)
    (hright : HoldsWord m φ right b) (k : Nat) :
    Computes m [.arith (Draft.tempName k) op left right] k φ (op.result? a b)
      fun φ' => HoldsWord m φ' (.register (Draft.tempName k) .i32) := by
  cases happly : op.result? a b with
  | none =>
    refine Computes.noResult ?_
    simp [Instr.exec, word?_of_holds hleft, word?_of_holds hright, happly]
  | some w =>
    refine Computes.result ?_ (value_put m φ _ .i32 (.word w))
    simp [Instr.exec, word?_of_holds hleft, word?_of_holds hright, happly]

theorem icmp_computes (pred : IntPred) (hleft : HoldsWord m φ left a)
    (hright : HoldsWord m φ right b) (k : Nat)
    (hholds : ∀ φ', φ'.value m (.register (Draft.tempName k) .i1) = some (.bit (pred.holds a b)) →
      holds m φ' (.register (Draft.tempName k) .i1) w) :
    Computes m [.icmp (Draft.tempName k) pred left right] k φ (some w)
      fun φ' => holds m φ' (.register (Draft.tempName k) .i1) := by
  refine Computes.result ?_ (hholds _ (value_put m φ _ .i1 (.bit (pred.holds a b))))
  simp [Instr.exec, word?_of_holds hleft, word?_of_holds hright]

theorem calculate_code (hl : ∀ s : State, s.Integral bound → OperandCode lhs s l)
    (hr : ∀ s : State, s.Integral bound → OperandCode rhs s r) (hop : op.isComparison = false)
    (hs : s.Integral bound) :
    WordCode (calculate op .int lhs rhs) s fun σ => (l σ).bind fun a => (r σ).bind
    (op.result? a) := by
  obtain ⟨arithOp, harith⟩ : ∃ arithOp, arithOp? .int op = some arithOp := by
    cases op <;> first | exact ⟨_, rfl⟩ | exact absurd hop (by decide)
  have hcode : calculate op .int lhs rhs = (do
      let left ← fetch lhs .int
      let right ← fetch rhs .int
      arith arithOp left right) := by
    rw [calculate, harith]
  rw [hcode]
  refine operands_code hl hr ?_ hs
  intro s left right hty
  refine ⟨_, _, runs_arith.2 ⟨rfl, rfl⟩, ?_, ?_⟩
  · rw [hty]
    exact isWord_next s rfl
  · intro m φ a b hleft hright
    rw [← result?_arithOp harith, hty]
    exact arith_computes arithOp hleft hright _

theorem compare_code (hl : ∀ s : State, s.Integral bound → OperandCode lhs s l)
    (hr : ∀ s : State, s.Integral bound → OperandCode rhs s r) (hop : op.isComparison = true)
    (hs : s.Integral bound) :
    TruthCode (compare op .int lhs rhs) s fun σ => (l σ).bind
    fun a => (r σ).bind (op.result? a) := by
  obtain ⟨pred, hpred⟩ : ∃ pred, intPred? op = some pred := by
    cases op <;> first | exact ⟨_, rfl⟩ | exact absurd hop (by decide)
  have hcode : compare op .int lhs rhs = (do
      let left ← fetch lhs .int
      let right ← fetch rhs .int
      icmp pred left right) := by
    rw [compare]
    simp only [hpred]
  rw [hcode]
  refine operands_code hl hr ?_ hs
  intro s left right _
  refine ⟨_, _, runs_icmp.2 ⟨rfl, rfl⟩, isTruth_next s rfl, ?_⟩
  intro m φ a b hleft hright
  rw [result?_intPred hpred]
  exact icmp_computes pred hleft hright _ fun φ' hbit => ⟨_, hbit, rfl⟩

theorem negate_code (h : OperandCode code s value) :
    WordCode (negate .int code) s fun σ => (value σ).bind fun w => some (-w) := by
  refine (fetch_code h).bind ?_
  rintro v is -
  refine ⟨_, _, runs_arith.2 ⟨rfl, rfl⟩, isWord_next _ rfl, ?_⟩
  intro m F σ φ w _ _ hholds
  have hneg : some (-w) = ArithOp.sub.result? 0 w := by
    rw [ArithOp.result?, Int32.zero_sub]
  have hzero : HoldsWord m φ (.i32 0) 0 := rfl
  rw [hneg]
  exact arith_computes .sub hzero hholds _

/-! ### Expressions -/

theorem variable_code {name : String} (hname : bound name) (hs : s.Integral bound) :
    OperandCode (do return .address (← variableAddress ⟨name, .top⟩)) s fun σ => σ name := by
  obtain ⟨slot, hslot⟩ := hs.slot name hname
  obtain ⟨-, slot', heq, hof, -⟩ := hs.known name _ hslot
  have hsame : slot' = slot := by
    rw [intSlot, intSlot, Slot.mk.injEq, Value.register.injEq] at heq
    exact heq.1.1.symm
  rw [hsame] at hof
  have hrun : Runs (variableAddress ⟨name, .top⟩) s (.register slot (.ptr .i32)) s :=
    runs_bind.2 ⟨_, s, runs_slotOf.2 ⟨hslot, rfl⟩, runs_pure.2 ⟨rfl, rfl⟩⟩
  refine ⟨.address (.register slot (.ptr .i32)), [], ?_, ?_, ?_⟩
  · rw [State.emit_nil]
    exact runs_bind.2 ⟨_, s, hrun, runs_pure.2 ⟨rfl, rfl⟩⟩
  · exact ⟨rfl, Value.Settled.of_dot hof.dotted⟩
  · intro m F σ φ _ hφ
    obtain ⟨w, j, hw, hj, hcell⟩ := hφ.values name slot hslot
    show Computes m [] _ φ (σ name) _
    rw [hw]
    exact Computes.nothing ⟨j, (hφ.placed j slot .i32 hj).1, hcell⟩

/-- A word is an operand, and so is the truth of a comparison. -/
theorem CodeFor.ofWord {code : Lowering Value} (h : WordCode code s value) :
    OperandCode (do return .value (← code)) s value := by
  refine h.map (fun _ _ hready => Or.inl hready) ?_
  rintro k m φ v w ⟨hty, -⟩ hholds
  exact ⟨fun _ => hholds, fun hbit => absurd (hty.symm.trans hbit) (by decide)⟩

theorem CodeFor.ofTruth {code : Lowering Value} (h : TruthCode code s value) :
    OperandCode (do return .value (← code)) s value := by
  refine h.map (fun _ _ hready => Or.inr hready) ?_
  rintro k m φ v w ⟨hty, -⟩ hholds
  exact ⟨fun hword => absurd (hty.symm.trans hword) (by decide), fun _ => hholds⟩

end

/-- **An integral expression is lowered to an operand that holds its value.** -/
theorem operand_code {bound : String → Prop} (e : Expr) (he : e.Integral bound) (s : State)
    (hs : s.Integral bound) : OperandCode (operand .top e) s fun σ => e.eval σ := by
  cases e with
  | constant literal shape =>
    cases literal with
    | int n =>
      refine ⟨.value (.i32 n.toInt), [], ?_, Or.inl ⟨rfl, fun _ _ h => by simp [Value.i32] at h⟩,
        ?_⟩
      · rw [State.emit_nil, operand]
        exact runs_pure.2 ⟨rfl, rfl⟩
      · intro m F σ φ _ _
        refine Computes.nothing
          ⟨fun _ => ?_, fun hbit => absurd hbit (by simp [Value.i32, Value.ty])⟩
        show some (Datum.word (.ofInt n.toInt)) = _
        rw [Int32.ofInt_toInt]
    | _ => exact absurd he (by simp [Expr.Integral])
  | var name shape =>
    rw [operand]
    exact variable_code he.1 hs
  | binary op lhs rhs shape =>
    obtain ⟨hlhs, hrhs, hty⟩ := he
    have hl := operand_code lhs hlhs
    have hr := operand_code rhs hrhs
    rw [operand, hty]
    cases hop : op.isComparison with
    | true =>
      rw [if_pos rfl]
      exact (compare_code hl hr hop hs).ofTruth
    | false =>
      rw [if_neg (by decide), if_neg (by decide)]
      exact (calculate_code hl hr hop hs).ofWord
  | negate e shape =>
    obtain ⟨he, hty⟩ := he
    rw [operand, hty]
    exact (negate_code (operand_code e he s hs)).ofWord
  | _ => exact absurd he (by simp [Expr.Integral])

section

variable {bound : String → Prop} {e : Expr} {s : State}

theorem valueOf_code (he : e.Integral bound) (hs : s.Integral bound) :
    WordCode (valueOf .top e .int) s fun σ => e.eval σ :=
  fetch_code (operand_code e he s hs)

theorem nonzero_code (he : e.Integral bound) (hs : s.Integral bound) :
    CodeFor (truthOf.nonzero .top e) s (fun σ => e.eval σ) IsTruth TellsNonzero := by
  have hvalue : (fun σ => e.eval σ) = fun σ => (e.eval σ).bind some := by
    funext σ
    rw [Option.bind_fun_some]
  rw [hvalue, truthOf.nonzero, he.ty]
  refine (valueOf_code he hs).bind ?_
  rintro v is -
  refine ⟨_, _, runs_icmp.2 ⟨rfl, rfl⟩, isTruth_next _ rfl, ?_⟩
  intro m F σ φ w _ _ hholds
  have hzero : HoldsWord m φ (.i32 0) 0 := rfl
  exact icmp_computes .ne hholds hzero _ fun φ' hbit => hbit

/-- **The truth of an expression is whether its value is not zero.** -/
theorem truthOf_code (he : e.Integral bound) (hs : s.Integral bound) :
    CodeFor (truthOf .top e) s (fun σ => e.eval σ) IsTruth TellsNonzero := by
  cases e with
  | binary op lhs rhs shape =>
    cases hop : op.isComparison with
    | false =>
      rw [truthOf, hop]
      exact nonzero_code he hs
    | true =>
      obtain ⟨hlhs, hrhs, hty⟩ := he
      rw [truthOf, hop, hty]
      obtain ⟨v, is, hrun, hready, hcode⟩ :=
        compare_code (operand_code lhs hlhs) (operand_code rhs hrhs) hop hs
      refine ⟨v, is, hrun, hready, ?_⟩
      intro m F σ φ hF hφ
      exact (hcode m F σ φ hF hφ).imp fun φ' w => HoldsTruth.tells
  | constant literal shape => exact nonzero_code he hs
  | var name shape => exact nonzero_code he hs
  | element name index shape => exact nonzero_code he hs
  | negate e shape => exact nonzero_code he hs
  | call name args ty => exact nonzero_code he hs

end

end Pseudocode.Lower
