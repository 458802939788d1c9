import Pseudocode.Ir.Draft.Function
import Pseudocode.Proofs.Ir.Decoding.Words

/-!
Instructions can be taken off the front of a text.

An instruction is written as the register it puts its value into, a word that says what it does, and
its operands (`Instr.render_eq`).  The text does not say everything: the type of a right operand is
left out, and so are the type of the address that `getelementptr` computes and the types of the
parameters of most functions that are called.  They follow from what is written where an instruction
is consistent.
-/

namespace Pseudocode.Ir

variable {v w c a b : Value} {k l : List Char} {s t : Signature} {d e : Option String}
  {as bs : List Value}

/-! ### Values -/

namespace Value

/-- Is the value a constant that is written as a word? -/
def isWordy : Value → Bool
  | int .. => true
  | double _ => true
  | null _ => true
  | _ => false

theorem toList_double (d : Double) :
    (renderDouble d).toList = '0' :: 'x' :: hexDigits 16 d.bits.toNat := by
  simp [renderDouble]

theorem isPlain_of_isWordy (h : v.isWordy = true) : IsPlain v.render.toList := by
  cases v with
  | int value ty => exact isPlain_int value
  | double value =>
    rw [render, toList_double]
    refine List.forall_mem_cons.2
      ⟨by decide, List.forall_mem_cons.2 ⟨by decide, isPlain_hexDigits _ _⟩⟩
  | null ty => exact List.all_eq_true.1 (show "null".toList.all isPlainChar = true by decide)
  | _ => simp [isWordy] at h

theorem render_ne_nil (h : v.isWordy = true) : v.render.toList ≠ [] := by
  cases v with
  | int value ty =>
    rw [render, toList_int]
    split
    · rw [Nat.toList_repr]
      exact Nat.toDigits_ne_nil
    · simp
  | double value => simp [render, toList_double]
  | null ty => simp [render]
  | _ => simp [isWordy] at h

theorem render_inj_of_isWordy (hv : v.isWordy = true) (hw : w.isWordy = true) (hty : v.ty = w.ty)
    (h : v.render.toList = w.render.toList) : v = w := by
  have hdouble : ∀ (i : Int) (d : Double), (toString i).toList ≠ (renderDouble d).toList := by
    intro i d heq
    have hx : 'x' ∈ (toString i).toList := by
      rw [heq, toList_double]
      simp
    exact absurd (of_mem_int hx) (by decide)
  have hnull : ∀ i : Int, (toString i).toList ≠ "null".toList := by
    intro i heq
    have hn : 'n' ∈ (toString i).toList := by
      rw [heq]
      decide
    exact absurd (of_mem_int hn) (by decide)
  cases v with
  | int i t =>
    cases w with
    | int j u =>
      rw [int_inj h]
      exact congrArg _ hty
    | double d => exact absurd h (hdouble i d)
    | null u => exact absurd h (hnull i)
    | _ => simp [isWordy] at hw
  | double d =>
    cases w with
    | int j u => exact absurd h.symm (hdouble j d)
    | double e =>
      rw [render, render, toList_double, toList_double] at h
      have hbits :=
        hexDigits_inj 16 d.bits.toNat_lt e.bits.toNat_lt (List.cons.inj (List.cons.inj h).2).2
      rw [show d = e from congrArg Double.mk (UInt64.toNat_inj.1 hbits)]
    | null u => simp [render, toList_double] at h
    | _ => simp [isWordy] at hw
  | null t =>
    cases w with
    | int j u => exact absurd h.symm (hnull j)
    | double e => simp [render, toList_double] at h
    | null u => exact congrArg _ hty
    | _ => simp [isWordy] at hw
  | _ => simp [isWordy] at hv

theorem toList_register (name : String) (ty : Ty) (k : List Char) :
    (register name ty).render.toList ++ k = '%' :: ((renderName name).toList ++ k) := by
  rw [render, String.toList_append, List.append_assoc]
  rfl

theorem toList_global (name : String) (ty : Ty) (k : List Char) :
    (global name ty).render.toList ++ k = '@' :: ((renderName name).toList ++ k) := by
  rw [render, String.toList_append, List.append_assoc]
  rfl

/-- A value that is written as a word does not begin as a name does. -/
theorem render_ne_name (hv : v.isWordy = true) (hw : ¬ w.isWordy = true) :
    v.render.toList ++ k ≠ w.render.toList ++ l := by
  have hne := fun c hc =>
    word_ne_cons (isPlain_of_isWordy hv) (render_ne_nil hv) (c := c) hc k
  cases w with
  | register name ty => exact toList_register name ty l ▸ hne '%' (by decide) _
  | global name ty => exact toList_global name ty l ▸ hne '@' (by decide) _
  | _ => simp [isWordy] at hw

/-- A value can be taken off the front of a text by one who knows its type. -/
theorem render_unique (hty : v.ty = w.ty) (hk : Delimits k) (hl : Delimits l)
    (h : v.render.toList ++ k = w.render.toList ++ l) : v = w ∧ k = l := by
  by_cases hv : v.isWordy = true <;> by_cases hw : w.isWordy = true
  · obtain ⟨hword, hkl⟩ :=
      word_unique (isPlain_of_isWordy hv) (isPlain_of_isWordy hw) (head?_all_of_delimits hk)
      (head?_all_of_delimits hl) h
    exact ⟨render_inj_of_isWordy hv hw hty hword, hkl⟩
  · exact absurd h (render_ne_name hv hw)
  · exact absurd h.symm (render_ne_name hw hv)
  · cases v with
    | register x t =>
      cases w with
      | register y u =>
        rw [toList_register, toList_register] at h
        obtain ⟨rfl, hkl⟩ := renderName_separable trivial trivial hk hl (List.cons.inj h).2
        exact ⟨congrArg _ hty, hkl⟩
      | global y u => simp [toList_register, toList_global] at h
      | _ => simp [isWordy] at hw
    | global x t =>
      cases w with
      | register y u => simp [toList_register, toList_global] at h
      | global y u =>
        rw [toList_global, toList_global] at h
        obtain ⟨rfl, hkl⟩ := renderName_separable trivial trivial hk hl (List.cons.inj h).2
        exact ⟨congrArg _ hty, hkl⟩
      | _ => simp [isWordy] at hw
    | _ => simp [isWordy] at hv

theorem toList_renderTyped (v : Value) (k : List Char) :
    v.renderTyped.toList ++ k = v.ty.render.toList ++ (' ' :: (v.render.toList ++ k)) := by
  rw [renderTyped, String.toList_append, String.toList_append, List.append_assoc, List.append_assoc]
  rfl

theorem renderTyped_separable :
    Separable (fun _ => True) Delimits fun v : Value => v.renderTyped.toList := by
  intro v w k l _ _ hk hl h
  dsimp only at h
  rw [toList_renderTyped, toList_renderTyped] at h
  obtain ⟨hty, hrest⟩ := Ty.render_separable trivial trivial rfl rfl h
  exact render_unique hty hk hl (List.cons.inj hrest).2

end Value

/-- Does the text go on with a new line? -/
def Breaks : List Char → Bool
  | '\n' :: _ => true
  | _ => false

theorem delimits_of_breaks (h : Breaks k) : Delimits k := by
  unfold Breaks at h
  split at h
  · rfl
  · contradiction

theorem ne_of_breaks (h : Breaks k) {c : Char} (hc : c ≠ '\n') (m : List Char) : c :: m ≠ k := by
  unfold Breaks at h
  split at h
  · intro heq
    exact hc (List.cons.inj heq).1
  · contradiction

/-! ### Lists of operands -/

theorem Ty.render_ne_close (t : Ty) (k l : List Char) : t.render.toList ++ k ≠ ')' :: l := by
  intro h
  have hbegins := t.beginsType_render k
  rw [h] at hbegins
  contradiction

theorem Value.renderTyped_ne_close (v : Value) (k l : List Char) :
    v.renderTyped.toList ++ k ≠ ')' :: l := by
  rw [toList_renderTyped]
  exact v.ty.render_ne_close _ l

theorem commas_unique {α : Type} {write : α → String}
    (hwrite : Separable (fun _ => True) Delimits fun a => (write a).toList)
    (hopen : ∀ a m n, (write a).toList ++ m ≠ ')' :: n) {as bs : List α} {k l : List Char}
    (h : (commas (as.map write)).toList ++ ')' :: k = (commas (bs.map write)).toList ++ ')' :: l) :
    as = bs ∧ k = l := by
  refine joined_unique hwrite (fun _ => rfl) (fun _ => rfl) ?_ (fun a m n _ => hopen a m n) ?_ ?_ h
  · simp
  · simp
  · simp

/-- What is written for a parameter of a signature, or for its further arguments. -/
def renderItem : Option Ty → String
  | some t => t.render
  | none => "..."

/-- What is written in the parentheses of a signature. -/
def Signature.items (s : Signature) : List (Option Ty) :=
  s.params.map some ++ if s.variadic then [none] else []

theorem Signature.renderParams_eq (s : Signature) :
    s.renderParams = commas (s.items.map renderItem) := by
  unfold renderParams items
  rw [List.map_append, List.map_map]
  split
  · rfl
  · rfl

theorem renderItem_separable :
    Separable (fun _ => True) Delimits fun item => (renderItem item).toList := by
  have hdots : ∀ (t : Ty) (k l : List Char), t.render.toList ++ k ≠ "...".toList ++ l := by
    intro t k l h
    have hbegins := t.beginsType_render k
    rw [h] at hbegins
    contradiction
  intro item item' k l _ _ hk hl h
  cases item with
  | some t =>
    cases item' with
    | some u =>
      obtain ⟨rfl, hkl⟩ := Ty.render_separable trivial trivial hk hl h
      exact ⟨rfl, hkl⟩
    | none => exact absurd h (hdots t k l)
  | none =>
    cases item' with
    | some u => exact absurd h.symm (hdots u l k)
    | none => exact ⟨rfl, List.append_cancel_left h⟩

theorem renderItem_ne_close (item : Option Ty) (k l : List Char) :
    (renderItem item).toList ++ k ≠ ')' :: l := by
  cases item with
  | some t => exact t.render_ne_close k l
  | none => simp [renderItem]

theorem Signature.items_inj (h : s.items = t.items) : s.params = t.params ∧
    s.variadic = t.variadic := by
  have hparams : ∀ s : Signature, s.items.filterMap id = s.params := by
    intro s
    unfold items
    split
    · simp
    · simp
  have hvariadic : ∀ s : Signature, none ∈ s.items ↔ s.variadic = true := by
    intro s
    simp [items]
  refine ⟨by rw [← hparams s, h, hparams t], ?_⟩
  rw [Bool.eq_iff_iff, ← hvariadic s, h, hvariadic t]

theorem Signature.renderParams_unique
    (h : s.renderParams.toList ++ ')' :: k = t.renderParams.toList ++ ')' :: l) :
    s.params = t.params ∧ s.variadic = t.variadic ∧ k = l := by
  rw [renderParams_eq, renderParams_eq] at h
  obtain ⟨hitems, hkl⟩ := commas_unique renderItem_separable renderItem_ne_close h
  obtain ⟨hparams, hvariadic⟩ := items_inj hitems
  exact ⟨hparams, hvariadic, hkl⟩

/-! ### What an instruction is made of -/

/-- The word that says what an instruction does. -/
inductive Opcode where
  | alloca | load | store | icmp | fcmp | gep | call
  | arith (op : ArithOp)
  | cast (op : CastOp)
  deriving DecidableEq

namespace Opcode

def word : Opcode → String
  | alloca => "alloca"
  | load => "load"
  | store => "store"
  | icmp => "icmp"
  | fcmp => "fcmp"
  | gep => "getelementptr"
  | call => "call"
  | arith op => op.mnemonic
  | cast op => op.mnemonic

/-- What a word says. -/
def read : String → Option Opcode
  | "alloca" => some alloca
  | "load" => some load
  | "store" => some store
  | "icmp" => some icmp
  | "fcmp" => some fcmp
  | "getelementptr" => some gep
  | "call" => some call
  | "add" => some (arith .add)
  | "sub" => some (arith .sub)
  | "mul" => some (arith .mul)
  | "sdiv" => some (arith .sdiv)
  | "srem" => some (arith .srem)
  | "fadd" => some (arith .fadd)
  | "fsub" => some (arith .fsub)
  | "fmul" => some (arith .fmul)
  | "fdiv" => some (arith .fdiv)
  | "frem" => some (arith .frem)
  | "sitofp" => some (cast .sitofp)
  | "fptosi" => some (cast .fptosi)
  | "uitofp" => some (cast .uitofp)
  | "zext" => some (cast .zext)
  | "sext" => some (cast .sext)
  | "bitcast" => some (cast .bitcast)
  | _ => none

theorem read_word (o : Opcode) : read o.word = some o := by
  cases o with
  | arith op => cases op <;> rfl
  | cast op => cases op <;> rfl
  | _ => rfl

theorem word_inj {o p : Opcode} (h : o.word.toList = p.word.toList) : o = p := by
  have hread := congrArg read (String.toList_inj.1 h)
  rw [read_word, read_word] at hread
  exact Option.some.inj hread

theorem isPlain_word (o : Opcode) : IsPlain o.word.toList := by
  refine List.all_eq_true.1 ?_
  cases o with
  | arith op => cases op <;> rfl
  | cast op => cases op <;> rfl
  | _ => rfl

theorem word_ne_nil (o : Opcode) : o.word.toList ≠ [] := by
  cases o with
  | arith op => cases op <;> simp [word, ArithOp.mnemonic]
  | cast op => cases op <;> simp [word, CastOp.mnemonic]
  | _ => simp [word]

end Opcode

theorem IntPred.isPlain_mnemonic (p : IntPred) : IsPlain p.mnemonic.toList := by
  refine List.all_eq_true.1 ?_
  cases p <;> rfl

theorem IntPred.mnemonic_inj {p q : IntPred} (h : p.mnemonic.toList = q.mnemonic.toList) :
    p = q := by
  cases p <;> cases q <;> simp_all [mnemonic]

theorem FloatPred.isPlain_mnemonic (p : FloatPred) : IsPlain p.mnemonic.toList := by
  refine List.all_eq_true.1 ?_
  cases p <;> rfl

theorem FloatPred.mnemonic_inj {p q : FloatPred} (h : p.mnemonic.toList = q.mnemonic.toList) :
    p = q := by
  cases p <;> cases q <;> simp_all [mnemonic]

/-- The type of the address that `getelementptr` computes from a base of this type with so many
indices. -/
def Ty.indexed? (base : Ty) (indices : Nat) : Option Ty := do
  let pointee ← base.pointee?
  let element ← (FunctionDraft.stepInto pointee (indices - 1)).toOption
  return .ptr element

namespace Instr

/-- The register that an instruction puts its value into. -/
def dest? : Instr → Option String
  | alloca dest _ => some dest
  | load dest _ _ => some dest
  | store _ _ => none
  | arith dest _ _ _ => some dest
  | icmp dest _ _ _ => some dest
  | fcmp dest _ _ _ => some dest
  | cast dest _ _ _ => some dest
  | gep dest _ _ _ _ => some dest
  | call dest _ _ _ => dest

def opcode : Instr → Opcode
  | alloca .. => .alloca
  | load .. => .load
  | store .. => .store
  | arith _ op _ _ => .arith op
  | icmp .. => .icmp
  | fcmp .. => .fcmp
  | cast _ op _ _ => .cast op
  | gep .. => .gep
  | call .. => .call

/-- What is written behind the word that says what an instruction does. -/
def operandText : Instr → String
  | alloca _ ty => ty.render
  | load _ ty ptr => ty.render ++ ", " ++ ptr.renderTyped
  | store value ptr => value.renderTyped ++ ", " ++ ptr.renderTyped
  | arith _ _ lhs rhs => lhs.renderTyped ++ ", " ++ rhs.render
  | icmp _ pred lhs rhs => pred.mnemonic ++ " " ++ (lhs.renderTyped ++ ", " ++ rhs.render)
  | fcmp _ pred lhs rhs => pred.mnemonic ++ " " ++ (lhs.renderTyped ++ ", " ++ rhs.render)
  | cast _ _ value target => value.renderTyped ++ " to " ++ target.render
  | gep _ _ base indices inbounds =>
    (if inbounds then "inbounds " else "") ++
      commas ((base.ty.pointee?.getD base.ty).render :: (base :: indices).map Value.renderTyped)
  | call _ callee signature args =>
    signature.ret.render ++ " " ++
      (if signature.variadic then "(" ++ signature.renderParams ++ ") " else "") ++
      "@" ++ renderName callee ++ "(" ++ commas (args.map Value.renderTyped) ++ ")"

/-- What is written for the register that is assigned to. -/
def assigned : Option String → List Char
  | some dest => '%' :: ((renderName dest).toList ++ " = ".toList)
  | none => []

theorem toList_assigning (dest text : String) :
    (assigning dest text).toList = assigned (some dest) ++ text.toList := by
  simp [assigning, assigned]

theorem render_eq (i : Instr) :
    i.render.toList = assigned i.dest? ++
    (i.opcode.word.toList ++ ' ' :: i.operandText.toList) := by
  cases i with
  | store value ptr => simp [render, operandText, assigned, dest?, opcode, Opcode.word]
  | call dest callee signature args =>
    cases dest <;> cases hvariadic : signature.variadic <;>
      simp [render, operandText, toList_assigning, assigned, dest?, opcode, Opcode.word, hvariadic]
  | gep dest result base indices inbounds =>
    cases inbounds <;> simp [render, operandText, toList_assigning, dest?, opcode, Opcode.word]
  | _ => simp [render, operandText, toList_assigning, dest?, opcode, Opcode.word]

/-- Does what the text leaves out follow from what it says? -/
def consistent : Instr → Bool
  | arith _ _ lhs rhs => lhs.ty == rhs.ty
  | icmp _ _ lhs rhs => lhs.ty == rhs.ty
  | fcmp _ _ lhs rhs => lhs.ty == rhs.ty
  | gep _ result base indices _ => base.ty.indexed? indices.length == some result
  | call _ _ signature args => signature.variadic || args.map Value.ty == signature.params
  | _ => true

theorem assigned_unique {o p : Opcode}
    (h : assigned d ++ (o.word.toList ++ ' ' :: k) = assigned e ++ (p.word.toList ++ ' ' :: l)) :
    d = e ∧ o = p ∧ k = l := by
  have hword : o.word.toList ++ ' ' :: k = p.word.toList ++ ' ' :: l → o = p ∧ k = l := by
    intro h
    obtain ⟨hop, hkl⟩ := word_unique o.isPlain_word p.isPlain_word rfl rfl h
    exact ⟨Opcode.word_inj hop, (List.cons.inj hkl).2⟩
  cases d with
  | none =>
    cases e with
    | none => exact ⟨rfl, hword h⟩
    | some y => exact absurd h (word_ne_cons o.isPlain_word o.word_ne_nil (by decide) _ _)
  | some x =>
    cases e with
    | none => exact absurd h.symm (word_ne_cons p.isPlain_word p.word_ne_nil (by decide) _ _)
    | some y =>
      rw [assigned, assigned, List.cons_append, List.cons_append, List.append_assoc,
        List.append_assoc] at h
      obtain ⟨rfl, hrest⟩ := renderName_separable trivial trivial rfl rfl (List.cons.inj h).2
      exact ⟨rfl, hword (List.append_cancel_left hrest)⟩

theorem pair_unique {d : Value} (hab : a.ty = b.ty) (hcd : c.ty = d.ty) (hk : Breaks k)
    (hl : Breaks l) (h : a.renderTyped.toList ++ (", ".toList ++ (b.render.toList ++ k)) =
      c.renderTyped.toList ++ (", ".toList ++ (d.render.toList ++ l))) : a = c ∧ b = d ∧ k = l := by
  obtain ⟨rfl, hrest⟩ := Value.renderTyped_separable trivial trivial rfl rfl h
  obtain ⟨rfl, hkl⟩ :=
    Value.render_unique (hab.symm.trans hcd) (delimits_of_breaks hk) (delimits_of_breaks hl)
    (List.append_cancel_left hrest)
  exact ⟨rfl, rfl, hkl⟩

theorem compared_unique {p q : String} {d : Value} (hp : IsPlain p.toList) (hq : IsPlain q.toList)
    (hab : a.ty = b.ty) (hcd : c.ty = d.ty) (hk : Breaks k) (hl : Breaks l)
    (h : (p ++ " " ++ (a.renderTyped ++ ", " ++ b.render)).toList ++ k =
      (q ++ " " ++ (c.renderTyped ++ ", " ++ d.render)).toList ++ l) :
    p.toList = q.toList ∧ a = c ∧ b = d ∧ k = l := by
  simp only [String.toList_append, List.append_assoc] at h
  obtain ⟨hpq, hrest⟩ := word_unique hp hq rfl rfl h
  exact ⟨hpq, pair_unique hab hcd hk hl (List.append_cancel_left hrest)⟩

theorem address_unique {t u : Ty} {vs ws : List Value} {p q : Bool} (hk : Breaks k) (hl : Breaks l)
    (h : ((if p then "inbounds " else "") ++
      commas (t.render :: vs.map Value.renderTyped)).toList ++ k =
      ((if q then "inbounds " else "") ++ commas (u.render :: ws.map Value.renderTyped)).toList ++
      l) :
    p = q ∧ vs = ws ∧ k = l := by
  have hword : ∀ (t : Ty) (k l : List Char), t.render.toList ++ k ≠ "inbounds ".toList ++ l := by
    intro t k l h
    have hbegins := t.beginsType_render k
    rw [h] at hbegins
    contradiction
  have hlist : ∀ {t u : Ty} {vs ws : List Value},
    (commas (t.render :: vs.map Value.renderTyped)).toList ++ k =
      (commas (u.render :: ws.map Value.renderTyped)).toList ++ l → vs = ws ∧ k = l := by
    intro t u vs ws h
    rw [commas, commas, toList_intercalate_cons, toList_intercalate_cons, List.flatMap_map,
      List.flatMap_map, List.append_assoc, List.append_assoc] at h
    have hnext : ∀ (vs : List Value) {m : List Char}, Breaks m →
        Delimits ((vs.flatMap fun v => ", ".toList ++ v.renderTyped.toList) ++ m) := by
      intro vs m hm
      cases vs with
      | nil => exact delimits_of_breaks hm
      | cons v vs => rfl
    obtain ⟨rfl, hrest⟩ := Ty.render_separable trivial trivial (hnext vs hk) (hnext ws hl) h
    exact preceded_unique Value.renderTyped_separable (fun _ => rfl) (delimits_of_breaks hk)
      (delimits_of_breaks hl)
      (fun m => ne_of_breaks hk (by decide) _) (fun m => ne_of_breaks hl (by decide) _) vs ws
      (by simp) (by simp) hrest
  have hcommas : ∀ (t : Ty) (vs : List Value) (m : List Char), ∃ n,
      (commas (t.render :: vs.map Value.renderTyped)).toList ++ m = t.render.toList ++ n := by
    intro t vs m
    rw [commas, toList_intercalate_cons, List.append_assoc]
    exact ⟨_, rfl⟩
  rw [String.toList_append, String.toList_append, List.append_assoc, List.append_assoc] at h
  cases p <;> cases q
  · exact ⟨rfl, hlist h⟩
  · obtain ⟨n, hn⟩ := hcommas t vs k
    exact absurd (hn.symm.trans h) (hword t n _)
  · obtain ⟨n, hn⟩ := hcommas u ws l
    exact absurd (hn.symm.trans h.symm) (hword u n _)
  · exact ⟨rfl, hlist (List.append_cancel_left h)⟩

theorem applied_unique {f g : String}
    (h : "@".toList ++
      ((renderName f).toList ++ ("(".toList ++ ((commas (as.map Value.renderTyped)).toList ++
        (")".toList ++ k)))) =
      "@".toList ++
      ((renderName g).toList ++ ("(".toList ++ ((commas (bs.map Value.renderTyped)).toList ++
        (")".toList ++ l))))) : f = g ∧ as = bs ∧ k = l := by
  obtain ⟨rfl, hargs⟩ := renderName_separable trivial trivial rfl rfl (List.append_cancel_left h)
  exact ⟨rfl, commas_unique Value.renderTyped_separable Value.renderTyped_ne_close
    (List.append_cancel_left hargs)⟩

theorem call_unique {f g : String} (hs : (call d f s as).consistent)
    (ht : (call e g t bs).consistent)
    (h : (call d f s as).operandText.toList ++ k = (call e g t bs).operandText.toList ++ l) :
    s = t ∧ f = g ∧ as = bs ∧ k = l := by
  obtain ⟨ret, params, variadic⟩ := s
  obtain ⟨ret', params', variadic'⟩ := t
  simp only [operandText, String.toList_append, List.append_assoc] at h
  obtain ⟨rfl, hrest⟩ := Ty.render_separable trivial trivial rfl rfl h
  replace hrest := List.append_cancel_left hrest
  cases variadic <;> cases variadic'
  · -- The types of the parameters are not written: they are those of the arguments.
    obtain ⟨rfl, rfl, rfl⟩ := applied_unique hrest
    simp only [consistent, Bool.false_or, beq_iff_eq] at hs ht
    exact ⟨by rw [← hs, ← ht], rfl, rfl, rfl⟩
  · simp at hrest
  · simp at hrest
  · simp only [if_true, String.toList_append, List.append_assoc] at hrest
    obtain ⟨hparams, _, hcall⟩ := Signature.renderParams_unique (List.append_cancel_left hrest)
    dsimp only at hparams
    obtain ⟨rfl, rfl, rfl⟩ := applied_unique (List.cons.inj hcall).2
    exact ⟨by rw [hparams], rfl, rfl, rfl⟩

/-- The operands tell what the instruction is, where it is known what it does and where it puts its
value. -/
theorem operandText_unique {i j : Instr} (hi : i.consistent) (hj : j.consistent)
    (hdest : i.dest? = j.dest?) (hop : i.opcode = j.opcode) (hk : Breaks k) (hl : Breaks l)
    (h : i.operandText.toList ++ k = j.operandText.toList ++ l) : i = j ∧ k = l := by
  -- Two instructions with one opcode are of one form.
  cases i <;> cases j <;> cases hop
  case alloca.alloca dest ty dest' ty' =>
    obtain rfl := Option.some.inj hdest
    obtain ⟨rfl, hkl⟩ :=
      Ty.render_separable trivial trivial (delimits_of_breaks hk) (delimits_of_breaks hl) h
    exact ⟨rfl, hkl⟩
  case load.load dest ty ptr dest' ty' ptr' =>
    obtain rfl := Option.some.inj hdest
    simp only [operandText, String.toList_append, List.append_assoc] at h
    obtain ⟨rfl, hrest⟩ := Ty.render_separable trivial trivial rfl rfl h
    obtain ⟨rfl, hkl⟩ := Value.renderTyped_separable trivial trivial (delimits_of_breaks hk)
      (delimits_of_breaks hl) (List.append_cancel_left hrest)
    exact ⟨rfl, hkl⟩
  case store.store value ptr value' ptr' =>
    simp only [operandText, String.toList_append, List.append_assoc] at h
    obtain ⟨rfl, hrest⟩ := Value.renderTyped_separable trivial trivial rfl rfl h
    obtain ⟨rfl, hkl⟩ := Value.renderTyped_separable trivial trivial (delimits_of_breaks hk)
      (delimits_of_breaks hl) (List.append_cancel_left hrest)
    exact ⟨rfl, hkl⟩
  case arith.arith dest op lhs rhs dest' lhs' rhs' =>
    obtain rfl := Option.some.inj hdest
    simp only [operandText, String.toList_append, List.append_assoc] at h
    obtain ⟨rfl, rfl, hkl⟩ := pair_unique (beq_iff_eq.1 hi) (beq_iff_eq.1 hj) hk hl h
    exact ⟨rfl, hkl⟩
  case icmp.icmp dest pred lhs rhs dest' pred' lhs' rhs' =>
    obtain rfl := Option.some.inj hdest
    obtain ⟨hpred, rfl, rfl, hkl⟩ := compared_unique pred.isPlain_mnemonic pred'.isPlain_mnemonic
      (beq_iff_eq.1 hi) (beq_iff_eq.1 hj) hk hl h
    obtain rfl := IntPred.mnemonic_inj hpred
    exact ⟨rfl, hkl⟩
  case fcmp.fcmp dest pred lhs rhs dest' pred' lhs' rhs' =>
    obtain rfl := Option.some.inj hdest
    obtain ⟨hpred, rfl, rfl, hkl⟩ := compared_unique pred.isPlain_mnemonic pred'.isPlain_mnemonic
      (beq_iff_eq.1 hi) (beq_iff_eq.1 hj) hk hl h
    obtain rfl := FloatPred.mnemonic_inj hpred
    exact ⟨rfl, hkl⟩
  case cast.cast dest op value target dest' value' target' =>
    obtain rfl := Option.some.inj hdest
    simp only [operandText, String.toList_append, List.append_assoc] at h
    obtain ⟨rfl, hrest⟩ := Value.renderTyped_separable trivial trivial rfl rfl h
    obtain ⟨rfl, hkl⟩ := Ty.render_separable trivial trivial (delimits_of_breaks hk)
      (delimits_of_breaks hl) (List.append_cancel_left hrest)
    exact ⟨rfl, hkl⟩
  case gep.gep dest result base indices inbounds dest' result' base' indices' inbounds' =>
    obtain rfl := Option.some.inj hdest
    obtain ⟨rfl, hvalues, hkl⟩ := address_unique hk hl h
    obtain ⟨rfl, rfl⟩ := List.cons.inj hvalues
    have hresult := (beq_iff_eq.1 hi).symm.trans (beq_iff_eq.1 hj)
    exact ⟨by rw [Option.some.inj hresult], hkl⟩
  case call.call dest callee signature args dest' callee' signature' args' =>
    obtain rfl : dest = dest' := hdest
    obtain ⟨rfl, rfl, rfl, hkl⟩ := call_unique hi hj h
    exact ⟨rfl, hkl⟩

theorem render_separable :
    Separable (fun i : Instr => i.consistent) Breaks fun i => i.render.toList := by
  intro i j k l hi hj hk hl h
  dsimp only at h
  rw [render_eq, render_eq, List.append_assoc, List.append_assoc, List.append_assoc,
    List.append_assoc] at h
  obtain ⟨hdest, hop, hrest⟩ := assigned_unique h
  exact operandText_unique hi hj hdest hop hk hl hrest

end Instr

/-! ### Terminators -/

namespace Terminator

theorem void_ne_renderTyped (v : Value) (hk : Breaks k) :
    "void".toList ++ k ≠ v.renderTyped.toList ++ l := by
  intro h
  rw [Value.toList_renderTyped] at h
  obtain ⟨_, hrest⟩ :=
    Ty.render_separable (a := Ty.void) trivial trivial (delimits_of_breaks hk) rfl h
  exact ne_of_breaks hk (by decide) _ hrest.symm

theorem label_ne_renderTyped (v : Value) (k l : List Char) :
    "label %".toList ++ k ≠ v.renderTyped.toList ++ l := by
  intro h
  have hbegins := v.ty.beginsType_render (' ' :: (v.render.toList ++ l))
  rw [← Value.toList_renderTyped, ← h] at hbegins
  contradiction

theorem render_separable :
    Separable (fun _ => True) Breaks fun t : Terminator => t.render.toList := by
  have hbr : "br label %".toList = "br ".toList ++ "label %".toList := rfl
  have hret : "ret void".toList = "ret ".toList ++ "void".toList := rfl
  intro s t k l _ _ hk hl h
  cases s with
  | ret value =>
    cases t with
    | ret value' =>
      cases value with
      | none =>
        cases value' with
        | none => exact ⟨rfl, List.append_cancel_left h⟩
        | some w =>
          simp only [render, hret, String.toList_append, List.append_assoc] at h
          exact absurd (List.append_cancel_left h) (void_ne_renderTyped w hk)
      | some v =>
        cases value' with
        | none =>
          simp only [render, hret, String.toList_append, List.append_assoc] at h
          exact absurd (List.append_cancel_left h.symm) (void_ne_renderTyped v hl)
        | some w =>
          simp only [render, String.toList_append, List.append_assoc] at h
          obtain ⟨rfl, hkl⟩ := Value.renderTyped_separable trivial trivial (delimits_of_breaks hk)
            (delimits_of_breaks hl) (List.append_cancel_left h)
          exact ⟨rfl, hkl⟩
    | _ => cases value <;> simp [render] at h
  | br label =>
    cases t with
    | br label' =>
      simp only [render, String.toList_append, List.append_assoc] at h
      obtain ⟨rfl, hkl⟩ := renderName_separable trivial trivial (delimits_of_breaks hk)
        (delimits_of_breaks hl) (List.append_cancel_left h)
      exact ⟨rfl, hkl⟩
    | condBr condition ifTrue ifFalse =>
      simp only [render, hbr, String.toList_append, List.append_assoc] at h
      exact absurd (List.append_cancel_left h) (label_ne_renderTyped condition _ _)
    | ret value => cases value <;> simp [render] at h
    | unreachable => simp [render] at h
  | condBr condition ifTrue ifFalse =>
    cases t with
    | br label' =>
      simp only [render, hbr, String.toList_append, List.append_assoc] at h
      exact absurd (List.append_cancel_left h.symm) (label_ne_renderTyped condition _ _)
    | condBr condition' ifTrue' ifFalse' =>
      simp only [render, String.toList_append, List.append_assoc] at h
      obtain ⟨rfl, hrest⟩ :=
        Value.renderTyped_separable trivial trivial rfl rfl (List.append_cancel_left h)
      obtain ⟨rfl, hlast⟩ :=
        renderName_separable trivial trivial rfl rfl (List.append_cancel_left hrest)
      obtain ⟨rfl, hkl⟩ := renderName_separable trivial trivial (delimits_of_breaks hk)
        (delimits_of_breaks hl) (List.append_cancel_left hlast)
      exact ⟨rfl, hkl⟩
    | ret value => cases value <;> simp [render] at h
    | unreachable => simp [render] at h
  | unreachable =>
    cases t with
    | unreachable => exact ⟨rfl, List.append_cancel_left h⟩
    | ret value => cases value <;> simp [render] at h
    | _ => simp [render] at h

end Terminator

/-- An instruction does not begin as a terminator does. -/
theorem Instr.render_ne_terminator (i : Instr) (t : Terminator) (k l : List Char) :
    i.render.toList ++ k ≠ t.render.toList ++ l := by
  have hinstr : i.render.toList.head? ∈ [some '%', some 's', some 'c'] := by
    rw [render_eq]
    cases i with
    | call dest callee signature args => cases dest <;> simp [dest?, assigned, opcode, Opcode.word]
    | _ => simp [dest?, assigned, opcode, Opcode.word]
  have hterminator : t.render.toList.head? ∈ [some 'r', some 'b', some 'u'] := by
    cases t with
    | ret value => cases value <;> simp [Terminator.render]
    | _ => simp [Terminator.render]
  intro h
  have hhead := congrArg List.head? h
  rw [List.head?_append, List.head?_append] at hhead
  have hother : ∀ x ∈ [some '%', some 's', some 'c'], ∀ y ∈ [some 'r', some 'b', some 'u'],
      ∀ k l : Option Char, x.or k ≠ y.or l := by simp
  exact hother _ hinstr _ hterminator _ _ hhead

end Pseudocode.Ir
