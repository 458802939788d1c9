import Pseudocode.Proofs.Ir.Decoding.Instructions

/-!
The text of a module says what the module is.

A block ends with its terminator, since no instruction begins as a terminator does; the blocks of a
function end with a brace, with which no label begins.  The parts of a module are told apart by how
their lines begin: that of a global with its name, that of a declaration and that of a function with
a word.  So two modules of the same name, for the same machine, are equal if their texts are
(`Module.render_eq_iff`).
-/

namespace Pseudocode.Ir

variable {α : Type}

/-! ### Functions -/

/-- What is written for an instruction or a terminator, on a line of its own. -/
def line (text : String) : List Char :=
  "  ".toList ++ (text.toList ++ "\n".toList)

theorem toList_join_map (write : α → String) (as : List α) :
    (String.join (as.map write)).toList = as.flatMap fun a => (write a).toList := by
  rw [String.toList_join, List.flatMap_map]

namespace Block

def consistent (b : Block) : Bool :=
  b.instrs.all Instr.consistent

theorem toList_render (b : Block) (k : List Char) :
    b.render.toList ++ k = (renderName b.label).toList ++
    (":\n".toList ++
      ((b.instrs.flatMap fun i => line i.render) ++ (line b.terminator.render ++ k))) := by
  simp [render, line, List.flatMap_map]

theorem render_separable :
    Separable (fun b : Block => b.consistent) (fun _ => true) fun b => b.render.toList := by
  intro b c k l hb hc _ _ h
  dsimp only at h
  rw [toList_render, toList_render] at h
  obtain ⟨hlabel, hbody⟩ := renderName_separable trivial trivial rfl rfl h
  have hline :
    Separable (fun i : Instr => i.consistent) (fun _ => true) fun i => line i.render := by
    intro i j m n hi hj _ _ hij
    simp only [line, List.append_assoc] at hij
    obtain ⟨heq, hrest⟩ := Instr.render_separable hi hj rfl rfl (List.append_cancel_left hij)
    exact ⟨heq, List.append_cancel_left hrest⟩
  have hend : ∀ (t : Terminator) (n : List Char) (i : Instr) (m : List Char), i.consistent →
      line i.render ++ m ≠ line t.render ++ n := by
    intro t n i m _ heq
    simp only [line, List.append_assoc] at heq
    exact i.render_ne_terminator t _ _ (List.append_cancel_left heq)
  obtain ⟨hinstrs, hterminator⟩ :=
    flatMap_unique hline (fun _ _ => rfl) rfl rfl (hend b.terminator k)
    (hend c.terminator l) b.instrs c.instrs (List.all_eq_true.1 hb) (List.all_eq_true.1 hc)
    (List.append_cancel_left hbody)
  simp only [line, List.append_assoc] at hterminator
  obtain ⟨hlast, hrest⟩ :=
    Terminator.render_separable trivial trivial rfl rfl (List.append_cancel_left hterminator)
  obtain ⟨label, instrs, terminator⟩ := b
  obtain ⟨label', instrs', terminator'⟩ := c
  dsimp only at hlabel hinstrs hlast
  exact ⟨by rw [hlabel, hinstrs, hlast], List.append_cancel_left hrest⟩

theorem render_ne_brace (b : Block) (k l : List Char) : b.render.toList ++ k ≠ '\x7d' :: l := by
  rw [toList_render]
  exact renderName_ne_cons b.label (by decide) (by decide) _ l

end Block

theorem Param.toList_render (p : Param) (k : List Char) :
    p.render.toList ++ k = p.ty.render.toList ++
    (" %".toList ++ ((renderName p.name).toList ++ k)) := by
  simp [render]

theorem Param.render_separable :
    Separable (fun _ => True) Delimits fun p : Param => p.render.toList := by
  intro p q k l _ _ hk hl h
  dsimp only at h
  rw [toList_render, toList_render] at h
  obtain ⟨hty, hrest⟩ := Ty.render_separable trivial trivial rfl rfl h
  obtain ⟨hname, hkl⟩ := renderName_separable trivial trivial hk hl (List.append_cancel_left hrest)
  obtain ⟨name, ty⟩ := p
  obtain ⟨name', ty'⟩ := q
  dsimp only at hty hname
  exact ⟨by rw [hty, hname], hkl⟩

theorem Param.render_ne_close (p : Param) (k l : List Char) : p.render.toList ++ k ≠ ')' :: l := by
  rw [toList_render]
  exact p.ty.render_ne_close _ l

namespace Function

def consistent (f : Function) : Bool :=
  f.blocks.all Block.consistent

theorem toList_render (f : Function) (k : List Char) : f.render.toList ++ k = "define ".toList ++
    (f.ret.render.toList ++ (" @".toList ++ ((renderName f.name).toList ++ ("(".toList ++
      ((commas (f.params.map Param.render)).toList ++ (") \x7b\n".toList ++
        (("\n".intercalate (f.blocks.map Block.render)).toList ++
          ("\x7d\n".toList ++ k)))))))) := by
  unfold render
  simp only [String.toList_append, List.append_assoc]

theorem render_separable :
    Separable (fun f : Function => f.consistent) (fun _ => true) fun f => f.render.toList := by
  intro f g k l hf hg _ _ h
  dsimp only at h
  rw [toList_render, toList_render] at h
  obtain ⟨hret, hnamed⟩ := Ty.render_separable trivial trivial rfl rfl (List.append_cancel_left h)
  obtain ⟨hname, hlist⟩ :=
    renderName_separable trivial trivial rfl rfl (List.append_cancel_left hnamed)
  obtain ⟨hparams, hbody⟩ :=
    commas_unique Param.render_separable Param.render_ne_close (List.append_cancel_left hlist)
  obtain ⟨hblocks, hrest⟩ :=
    joined_unique Block.render_separable (fun _ => rfl) (fun _ => rfl) (by simp)
    (fun b m n _ => b.render_ne_brace m n) (List.all_eq_true.1 hf) (List.all_eq_true.1 hg)
    (List.cons.inj (List.cons.inj (List.cons.inj hbody).2).2).2
  obtain ⟨name, params, ret, blocks⟩ := f
  obtain ⟨name', params', ret', blocks'⟩ := g
  dsimp only at hname hparams hret hblocks
  exact ⟨by rw [hname, hparams, hret, hblocks], (List.cons.inj hrest).2⟩

end Function

/-! ### Lines of a module -/

theorem Global.toList_render (g : Global) (k : List Char) : g.render.toList ++ k = "@".toList ++
    ((renderName g.name).toList ++
      (" = private unnamed_addr constant ".toList ++ (g.ty.render.toList ++
      (" c\"".toList ++ ((escapeBytes g.bytes).toList ++ ("\"\n".toList ++ k)))))) := by
  unfold render
  simp only [String.toList_append, List.append_assoc]

theorem Global.render_separable :
    Separable (fun _ => True) (fun _ => true) fun g : Global => g.render.toList := by
  intro g g' k l _ _ _ _ h
  dsimp only at h
  rw [toList_render, toList_render] at h
  obtain ⟨hname, hty⟩ := renderName_separable trivial trivial rfl rfl (List.append_cancel_left h)
  obtain ⟨_, hbytes⟩ := Ty.render_separable trivial trivial rfl rfl (List.append_cancel_left hty)
  obtain ⟨hsame, hrest⟩ := escapeBytes_unique (List.append_cancel_left hbytes)
  obtain ⟨name, bytes⟩ := g
  obtain ⟨name', bytes'⟩ := g'
  dsimp only at hname hsame
  exact ⟨by rw [hname, hsame], (List.cons.inj hrest).2⟩

theorem Declaration.toList_render (d : Declaration) (k : List Char) :
    d.render.toList ++ k = "declare ".toList ++
    (d.signature.ret.render.toList ++ (" @".toList ++ ((renderName d.name).toList ++ ("(".toList ++
      (d.signature.renderParams.toList ++ (")\n".toList ++ k)))))) := by
  unfold render
  simp only [String.toList_append, List.append_assoc]

theorem Declaration.render_separable :
    Separable (fun _ => True) (fun _ => true) fun d : Declaration => d.render.toList := by
  intro d d' k l _ _ _ _ h
  dsimp only at h
  rw [toList_render, toList_render] at h
  obtain ⟨hret, hnamed⟩ := Ty.render_separable trivial trivial rfl rfl (List.append_cancel_left h)
  obtain ⟨hname, hlist⟩ :=
    renderName_separable trivial trivial rfl rfl (List.append_cancel_left hnamed)
  obtain ⟨hparams, hvariadic, hrest⟩ :=
    Signature.renderParams_unique (List.append_cancel_left hlist)
  obtain ⟨name, ret, params, variadic⟩ := d
  obtain ⟨name', ret', params', variadic'⟩ := d'
  dsimp only at hname hret hparams hvariadic
  exact ⟨by rw [hname, hret, hparams, hvariadic], (List.cons.inj hrest).2⟩

theorem toList_paragraph_cons (write : α → String) (a : α) (as : List α) (k : List Char) :
    (paragraph ((a :: as).map write)).toList ++ k =
      '\n' :: ((write a).toList ++ ((as.flatMap fun a => (write a).toList) ++ k)) := by
  rw [paragraph, if_neg (by simp), String.toList_append, toList_join_map, List.flatMap_cons,
    List.append_assoc, List.append_assoc]
  rfl

/-- Lines behind an empty one, up to something that does not begin as they do. -/
theorem paragraph_unique {P : α → Prop} {write : α → String}
    (hwrite : Separable P (fun _ => true) fun a => (write a).toList) {k l : List Char}
    (hk : ∀ a m, P a → (write a).toList ++ m ≠ k ∧ '\n' :: ((write a).toList ++ m) ≠ k)
    (hl : ∀ a m, P a → (write a).toList ++ m ≠ l ∧ '\n' :: ((write a).toList ++ m) ≠ l)
    {as bs : List α} (has : ∀ a ∈ as, P a) (hbs : ∀ b ∈ bs, P b)
    (h : (paragraph (as.map write)).toList ++ k = (paragraph (bs.map write)).toList ++ l) :
    as = bs ∧ k = l := by
  cases as with
  | nil =>
    cases bs with
    | nil => exact ⟨rfl, h⟩
    | cons b bs =>
      rw [toList_paragraph_cons] at h
      exact absurd h.symm (hk b _ (hbs b List.mem_cons_self)).2
  | cons a as =>
    cases bs with
    | nil =>
      rw [toList_paragraph_cons] at h
      exact absurd h (hl a _ (has a List.mem_cons_self)).2
    | cons b bs =>
      rw [toList_paragraph_cons, toList_paragraph_cons] at h
      refine flatMap_unique hwrite (fun _ _ => rfl) rfl rfl (fun a m ha => (hk a m ha).1)
        (fun b m hb => (hl b m hb).1) (a :: as) (b :: bs) has hbs ?_
      rw [List.flatMap_cons, List.flatMap_cons, List.append_assoc, List.append_assoc]
      exact (List.cons.inj h).2

namespace Module

def consistent (m : Module) : Bool :=
  m.functions.all Function.consistent

/-- The functions of a module, each behind an empty line. -/
def functionText (functions : List Function) : List Char :=
  functions.flatMap fun f => '\n' :: f.render.toList

/-- The declarations and the functions of a module. -/
def declaredText (declarations : List Declaration) (functions : List Function) : List Char :=
  (paragraph (declarations.map Declaration.render)).toList ++ functionText functions

theorem toList_render (m : Module) : m.render.toList = "; ModuleID = '".toList ++ (m.name.toList ++
    ("'\n".toList ++ ("source_filename = \"".toList ++ ((escapeBytes (utf8 m.sourceName)).toList ++
      ('"' :: '\n' :: ("target triple = \"".toList ++ (m.target.toList ++ ('"' :: '\n' ::
        ((paragraph (m.globals.map Global.render)).toList ++
          declaredText m.declarations m.functions))))))))) := by
  have hmark : "\"\n".toList = ['"', '\n'] := rfl
  have hfunctions : (String.join (m.functions.map fun f => "\n" ++ f.render)).toList =
    functionText m.functions := by
    rw [toList_join_map]
    simp only [String.toList_append]
    rfl
  unfold render declaredText
  simp only [String.toList_append, List.append_assoc, hfunctions, hmark, List.cons_append,
    List.nil_append]

theorem functionText_cons (f : Function) (fs : List Function) :
    functionText (f :: fs) = '\n' :: (f.render.toList ++ functionText fs) := by
  simp [functionText]

theorem declaration_ne_functionText (functions : List Function) (d : Declaration) (m : List Char) :
    d.render.toList ++ m ≠ functionText functions ∧
    '\n' :: (d.render.toList ++ m) ≠ functionText functions := by
  rw [Declaration.toList_render]
  cases functions with
  | nil => simp [functionText]
  | cons f fs =>
    rw [functionText_cons, Function.toList_render]
    simp

theorem global_ne_declaredText (declarations : List Declaration) (functions : List Function)
    (g : Global) (m : List Char) : g.render.toList ++ m ≠ declaredText declarations functions ∧
      '\n' :: (g.render.toList ++ m) ≠ declaredText declarations functions := by
  rw [Global.toList_render, declaredText]
  cases declarations with
  | nil =>
    cases functions with
    | nil => simp [functionText, paragraph]
    | cons f fs =>
      rw [functionText_cons, Function.toList_render]
      simp [paragraph]
  | cons d ds =>
    rw [toList_paragraph_cons, Declaration.toList_render]
    simp

theorem functionText_inj {fs gs : List Function} (hfs : ∀ f ∈ fs, f.consistent)
    (hgs : ∀ g ∈ gs, g.consistent) (h : functionText fs = functionText gs) : fs = gs := by
  have hfunctions : (fs.flatMap fun f => ['\n'] ++ f.render.toList) ++ [] =
      (gs.flatMap fun g => ['\n'] ++ g.render.toList) ++ [] := by
    rw [List.append_nil, List.append_nil]
    exact h
  exact (preceded_unique Function.render_separable (fun _ => rfl) rfl rfl (by simp) (by simp) fs
    gs hfs hgs hfunctions).1

/-- The text says what the module is, apart from its name and the machine it is for. -/
theorem render_eq_iff {m n : Module} (hname : m.name = n.name) (htarget : m.target = n.target)
    (hm : m.consistent) (hn : n.consistent) : m.render = n.render ↔ m = n := by
  refine ⟨?_, congrArg render⟩
  intro h
  have htext := congrArg String.toList h
  rw [toList_render, toList_render, hname, htarget] at htext
  have hsource := List.append_cancel_left (List.append_cancel_left (List.append_cancel_left
    (List.append_cancel_left htext)))
  obtain ⟨hbytes, hbody⟩ := escapeBytes_unique hsource
  have hparts := List.append_cancel_left (List.append_cancel_left (List.cons.inj hbody).2)
  rw [List.cons.injEq, List.cons.injEq] at hparts
  obtain ⟨hglobals, hdeclared⟩ := paragraph_unique Global.render_separable
    (fun g k _ => global_ne_declaredText m.declarations m.functions g k)
    (fun g k _ => global_ne_declaredText n.declarations n.functions g k) (by simp)
    (by simp) hparts.2.2
  obtain ⟨hdeclarations, hdefined⟩ := paragraph_unique Declaration.render_separable
    (fun d k _ => declaration_ne_functionText m.functions d k)
    (fun d k _ => declaration_ne_functionText n.functions d k) (by simp) (by simp) hdeclared
  have hfunctions := functionText_inj (List.all_eq_true.1 hm) (List.all_eq_true.1 hn) hdefined
  obtain ⟨name, sourceName, target, globals, declarations, functions⟩ := m
  obtain ⟨name', sourceName', target', globals', declarations', functions'⟩ := n
  dsimp only at hname htarget hbytes hglobals hdeclarations hfunctions
  rw [hname, htarget, utf8_inj hbytes, hglobals, hdeclarations, hfunctions]

/-- A module that prints the bytes of a global twice, once through a register of this name. -/
def printing (register : String) : Module :=
  let text : Global := { name := "text", bytes := [104, 34, 0] }
  let address : Value := .register register .bytes
  let puts : Signature := { ret := .i32, params := [.bytes] }
  let printf : Signature := { ret := .i32, params := [.bytes], variadic := true }
  let entry : Block := {
    label := "entry"
    instrs := [.gep register .bytes text.address [.i32 0, .i32 0] true,
      .call (some "n") "puts" puts [address],
      .icmp "c" .slt (.register "n" .i32) (.i32 0),
      .call none "printf" printf [address, .double ⟨0⟩]]
    terminator := .ret (some (.i32 0)) }
  { name := "main", sourceName := "main.pc", target := "x86_64"
    globals := [text]
    declarations := [⟨"puts", puts⟩, ⟨"printf", printf⟩]
    functions := [{ name := "main", params := [], ret := .i32, blocks := [entry] }] }

theorem printing_render_eq_iff :
    (printing "text").consistent = true ∧ (printing "\"text\"").consistent = true ∧
      ((printing "text").render = (printing "\"text\"").render ↔
        printing "text" = printing "\"text\"") :=
  ⟨by decide, by decide, render_eq_iff rfl rfl (by decide) (by decide)⟩

end Module

end Pseudocode.Ir
