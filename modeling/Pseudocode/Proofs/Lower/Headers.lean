import Pseudocode.Proofs.Ir.Linking
import Pseudocode.Proofs.Lower.WellFormed

/-!
Which functions a module has.

There is one function for every subroutine that is declared in a program, in the order in which the
declarations end, and `main` comes last (`fits_of_generate`).  A function has the name of its
subroutine, a parameter for each of its parameters, and it returns what the subroutine returns.

Together with what is known of finished functions this gives that no name is given twice in a
function (`localNames_nodup_of_generate`).
-/

namespace Pseudocode

/-! ### Headers -/

/-- What the first line of a subroutine says. -/
structure Header where
  name : String
  params : List Param
  ty : Ty

mutual

/-- The headers of the subroutines that are declared in a statement, in the order in which they
end. -/
def Stmt.headers : Stmt → List Header
  | .ifThen _ body rest => headersAll body ++ rest.headers
  | .whileLoop _ body => headersAll body
  | .forLoop _ _ body => headersAll body
  | .subroutine name params body ty => headersAll body ++ [⟨name, params, ty⟩]
  | _ => []

def headersAll : List Stmt → List Header
  | [] => []
  | s :: rest => s.headers ++ headersAll rest

def ElsePart.headers : ElsePart → List Header
  | .none => []
  | .body body => headersAll body
  | .elseIf _ body rest => headersAll body ++ rest.headers

end

namespace Lower

open Ir

/-- The function is one for a subroutine with this header. -/
structure Fits (h : Header) (f : Function) : Prop where
  name : f.name = h.name
  params : ParamsFit h.params f.params
  ret : irTy? h.ty = some f.ret

/-- Functions for these headers have been finished, one after another.  Their subroutines are the
ones that have been declared meanwhile, each of them for the first time. -/
structure Finishes (headers : List Header) (s s' : State) : Prop where
  functions : ∃ fs, s'.module.functions.toList = s.module.functions.toList ++ fs ∧
    List.Forall₂ Fits headers fs
  declared : ∀ name, name ∈ s'.subroutines ↔ name ∈ s.subroutines ∨ name ∈ headers.map Header.name
  fresh : ∀ header ∈ headers, header.name ∉ s.subroutines ∧ header.name ∉ Routines.reserved
  distinct : (headers.map Header.name).Nodup
  /-- A subroutine is called by the signature that its function has. -/
  signatures : ∀ (name : String) (sub : Subroutine), s'.subroutines[name]? = some sub →
    s.subroutines[name]? = some sub ∨ ∃ f ∈ s'.module.functions, f.name = name ∧
    f.signature = sub.signature

namespace Finishes

variable {headers headers' : List Header} {s s₁ s' : State}

theorem of_eq (hfunctions : s'.module.functions = s.module.functions)
    (hsubs : s'.subroutines = s.subroutines) : Finishes [] s s' := by
  refine ⟨⟨[], by rw [hfunctions, List.append_nil], .nil⟩, ?_, by simp, List.nodup_nil, ?_⟩
  · simp [hsubs]
  · rw [hsubs]
    exact fun _ _ h => .inl h

theorem of_appends (h : Appends s s') : Finishes [] s s' :=
  of_eq h.functions h.subroutines

theorem mem_functions (h : Finishes headers s s') {f : Function} (hf : f ∈ s.module.functions) :
    f ∈ s'.module.functions := by
  obtain ⟨fs, hfs, -⟩ := h.functions
  rw [← Array.mem_toList_iff, hfs]
  exact List.mem_append_left _ (Array.mem_toList_iff.mpr hf)

theorem trans (h : Finishes headers s s₁) (h' : Finishes headers' s₁ s') :
    Finishes (headers ++ headers') s s' := by
  obtain ⟨fs, hfs, hfits⟩ := h.functions
  obtain ⟨fs', hfs', hfits'⟩ := h'.functions
  refine ⟨⟨fs ++ fs', by rw [hfs', hfs, List.append_assoc], List.rel_append hfits hfits'⟩, ?_,
    ?_, ?_, ?_⟩
  · intro name
    rw [h'.declared, h.declared, List.map_append, List.mem_append, or_assoc]
  · intro header hheader
    rcases List.mem_append.mp hheader with hmem | hmem
    · exact h.fresh header hmem
    · exact ⟨fun hold => (h'.fresh header hmem).1 ((h.declared _).2 (.inl hold)),
        (h'.fresh header hmem).2⟩
  · rw [List.map_append]
    refine h.distinct.append h'.distinct fun name hname hname' => ?_
    obtain ⟨header, hheader, rfl⟩ := List.mem_map.mp hname'
    exact (h'.fresh header hheader).1 ((h.declared _).2 (.inr hname))
  · intro name sub hsub
    rcases h'.signatures name sub hsub with hsub₁ | hfound
    · refine (h.signatures name sub hsub₁).imp_right ?_
      rintro ⟨f, hf, heq⟩
      exact ⟨f, h'.mem_functions hf, heq⟩
    · exact .inr hfound

theorem congr {t t' : State} (h : Finishes headers s s')
    (ht : t.module.functions = s.module.functions)
    (htsubs : t.subroutines = s.subroutines) (ht' : t'.module.functions = s'.module.functions)
    (htsubs' : t'.subroutines = s'.subroutines) : Finishes headers t t' := by
  obtain ⟨fs, hfs, hfits⟩ := h.functions
  refine ⟨⟨fs, by rw [ht', ht, hfs], hfits⟩, ?_, ?_, h.distinct, ?_⟩
  · rw [htsubs, htsubs']
    exact h.declared
  · rw [htsubs]
    exact h.fresh
  · rw [htsubs, htsubs', ht']
    exact h.signatures

end Finishes

variable {scope : Scope} {s s₁ s₂ s₃ s' : State} {u : Unit}

theorem Straight.finishes {kinds : SlotKind → Prop} (h : Straight kinds scope s s') :
    Finishes [] s s' :=
  .of_eq h.same.2.2 h.same.2.1

/-! ### Statements -/

theorem finishes_arm {condition : Expr} {join? : Option Nat} {body : Lowering Unit}
    {rest : ElsePart} {truth : Value} {k : FunctionDraft.Fork} {headers : List Header}
    (h : ArmRun scope condition join? body (elsePart? scope rest) s s' truth s₁ s₂ s₃ k)
    (hbody : Finishes headers (s₁.moved (k.function.switchTo k.body) s₁.storage) s₂)
    (hrest : (elsePart? scope rest).isSome → Finishes rest.headers (s₁.otherwise s₂ k) s₃) :
    Finishes (headers ++ rest.headers) s s' := by
  have hfirst := Finishes.of_appends h.condition.appends
  have hthen : Finishes headers s₁ s₂ := hbody.congr rfl rfl rfl rfl
  have hother : Finishes rest.headers s₂ s₃ := by
    cases rest with
    | none =>
      rw [h.alone rfl]
      exact .of_eq rfl rfl
    | body code => exact (hrest rfl).congr rfl rfl rfl rfl
    | elseIf condition code rest => exact (hrest rfl).congr rfl rfl rfl rfl
  rw [h.result]
  exact (hfirst.trans (hthen.trans hother)).congr rfl rfl rfl rfl

theorem finishes_loop {kind : String} {body step : Lowering Unit} {condition : Expr} {truth : Value}
    {headers : List Header} (h : LoopRun scope kind body step condition s s' truth s₁ s₂ s₃)
    (hbody : Finishes headers (s.moved (s.function.enter kind) (s.storage.forgetLengths scope)) s₁)
    (hstep : Finishes [] s₁ s₂) : Finishes headers s s' := by
  have h₁ : Finishes headers s s₁ := hbody.congr rfl rfl rfl rfl
  have h₃ := hstep.trans (.of_appends h.condition.appends)
  rw [h.result, ← List.append_nil headers]
  exact (h₁.trans h₃).congr rfl rfl rfl rfl

theorem mem_within {name other : String} {irParams : List Ir.Param} {ret : Ir.Ty}
    {sub : Subroutine} :
    other ∈ (s.within name irParams ret sub).subroutines ↔ other = name ∨
    other ∈ s.subroutines := by
  show other ∈ s.subroutines.insert name sub ↔ _
  rw [Std.TreeMap.mem_insert, Std.LawfulEqOrd.compare_eq_iff_eq, eq_comm]

/-- A subroutine is declared, those in its body follow, and then its own function is finished. -/
theorem Finishes.within {headers : List Header} {header : Header} {irParams : List Ir.Param}
    {ret : Ir.Ty} {sub : Subroutine} {f : Function} {outer : FunctionDraft} (hf : Fits header f)
    (hreserved : header.name ∉ Routines.reserved) (hnew : header.name ∉ s.subroutines)
    (h : Finishes headers (s.within header.name irParams ret sub) s₁)
    (hsignature : f.signature = sub.signature) :
    Finishes (headers ++ [header]) s
    { s₁ with module := s₁.module.addFunction f, function := outer } := by
  have hothers : ∀ other ∈ headers, other.name ≠ header.name ∧ other.name ∉ s.subroutines ∧
      other.name ∉ Routines.reserved := by
    intro other hother
    obtain ⟨hfresh, hfree⟩ := h.fresh other hother
    rw [mem_within, not_or] at hfresh
    exact ⟨hfresh.1, hfresh.2, hfree⟩
  obtain ⟨fs, hfs, hfits⟩ := h.functions
  refine ⟨⟨fs ++ [f], ?_, List.rel_append hfits (.cons hf .nil)⟩, ?_, ?_, ?_, ?_⟩
  · show (s₁.module.functions.push f).toList = _
    rw [Array.toList_push, hfs, List.append_assoc]
    rfl
  · intro name
    refine (h.declared name).trans ?_
    rw [mem_within, List.map_append, List.mem_append, List.map_cons, List.map_nil,
      List.mem_singleton,
      or_comm (a := name = header.name), or_assoc, or_comm (a := name = header.name)]
  · intro other hother
    rcases List.mem_append.mp hother with hmem | hmem
    · exact (hothers other hmem).2
    · rw [List.mem_singleton.mp hmem]
      exact ⟨hnew, hreserved⟩
  · rw [List.map_append, List.map_cons, List.map_nil]
    refine h.distinct.append (List.nodup_singleton _) fun name hname hthis => ?_
    obtain ⟨other, hother, rfl⟩ := List.mem_map.mp hname
    exact (hothers other hother).1 (List.mem_singleton.mp hthis)
  · intro name found hfound
    rcases h.signatures name found hfound with hwithin | ⟨g, hg, heq⟩
    · rcases insert_cases hwithin with ⟨rfl, rfl⟩ | hold
      · exact .inr ⟨f, Array.mem_push.mpr (.inr rfl), hf.name, hsignature⟩
      · exact .inl hold
    · exact .inr ⟨g, Array.mem_push.mpr (.inl hg), heq⟩

theorem finishes_subroutine {name : String} {params : List Param} {ty : Ty} {body : List Stmt}
    {headers : List Header}
    (hbody : ∀ s s', s.function.Open → Runs (block (.subroutine name) body) s () s' →
      Finishes headers s s')
    (h : Runs (subroutine name params ty (block (.subroutine name) body)) s u s') :
    Finishes (headers ++ [⟨name, params, ty⟩]) s s' := by
  obtain ⟨hreserved, hnew, irParams, ret, s₁, s₂, f, hfit, hret, hstore, hrun, hfinish, rfl⟩ :=
    runs_subroutine h
  obtain ⟨k₁, o₁⟩ := keeps_storeParams _ _ (open_start name irParams ret) hstore
  obtain ⟨k₂, -⟩ := block_keeps (.subroutine name) body _ _ o₁ hrun
  have hsignature : f.name = name ∧ f.params = irParams ∧ f.ret = ret := by
    rcases hfinish with ⟨-, rfl⟩ | ⟨-, value, -, -, rfl⟩
    · exact (k₁.steps.trans k₂.steps).signature_eq
    · exact ((k₁.steps.trans k₂.steps).terminate _).signature_eq
  obtain ⟨hname, rfl, rfl⟩ := hsignature
  have hinner := (straight_storeParams hstore).finishes.trans (hbody _ _ o₁ hrun)
  have hfits : Fits ⟨name, params, ty⟩ f.build := ⟨hname, hfit, hret⟩
  exact .within hfits hreserved hnew hinner rfl

/-- **For every subroutine that is declared in a statement a function is finished.** -/
theorem finishes_walk :
    Walk (fun _ st => Finishes st.headers) (fun _ body => Finishes (headersAll body))
    fun _ part _ => Finishes part.headers where
  logged _ h := h.congr rfl rfl rfl rfl
  expr _ h := .of_appends h.appends
  assign _ h := (straight_assign h).finishes
  array _ h := (straight_declareArray h).finishes
  output _ h := .of_appends h.appends
  input _ h := .of_appends h.appends
  ifThen _ harm hbody hrest := finishes_arm harm hbody hrest
  whileLoop hloop hbody := finishes_loop hloop hbody (.of_eq rfl rfl)
  forLoop _ hinit _ hloop hbody :=
    (straight_assign hinit).finishes.trans
      (finishes_loop hloop hbody (straight_assign hloop.step).finishes)
  subroutine _ h hbody := finishes_subroutine hbody h
  ret _ h := by
    obtain ⟨sub, value, s₁, -, hvalue, rfl⟩ := runs_leaveWith h
    have a := hvalue.appends
    exact .of_eq a.functions a.subroutines
  nil := .of_eq rfl rfl
  cons _ _ _ _ _ _ h₁ h₂ := h₁.trans h₂
  body _ _ _ _ h := h.congr rfl rfl rfl rfl
  elseIf _ _ harm hbody hrest := finishes_arm harm hbody hrest

theorem block_finishes (scope : Scope) (body : List Stmt) (s s' : State) (hopen : s.function.Open)
    (h : Runs (block scope body) s () s') : Finishes (headersAll body) s s' :=
  (finishes_walk.block scope body s s' hopen h).2

theorem ParamsFit.nodup {params : List Param} {irParams : List Ir.Param}
    (h : ParamsFit params irParams)
    (hnodup : (params.map Param.name).Nodup) : (irParams.map Ir.Param.name).Nodup := by
  have hnames : irParams.map Ir.Param.name = (params.map Param.name).map (· ++ ".arg") := by
    induction h with
    | nil => rfl
    | cons hpq _ ih =>
      rw [List.map_cons, List.nodup_cons] at hnodup
      rw [List.map_cons, List.map_cons, List.map_cons, hpq.1, ih hnodup.2]
  rw [hnames]
  exact hnodup.map fun a b heq => (String.append_left_inj _).mp heq

end Lower

open Lower Ir

/-! ### Programs -/

/-- **There is one function for every subroutine, and `main` is the last one.** -/
theorem fits_of_generate {name sourceName target : String} {p : Program} {m : Module}
    (h : (generate name sourceName target p).1 = .ok m) :
    ∃ fs main, m.functions = fs ++ [main] ∧ List.Forall₂ Fits (headersAll p) fs ∧
    main.name = "main" ∧
      main.params = [] ∧ main.ret = .i32 := by
  obtain ⟨s, hrun⟩ := runs_of_generate h
  obtain ⟨s₁, hblock, rfl⟩ := runs_program hrun
  have hopen := opened_start name sourceName target
  obtain ⟨fs, hfs, hfits⟩ := (block_finishes .top p _ _ hopen hblock).functions
  obtain ⟨hkeeps, -⟩ := block_keeps .top p _ _ hopen hblock
  have hsteps : FunctionDraft.Steps (.start "main" [] .i32) (s₁.function.leave (some (.i32 0))) :=
    hkeeps.steps.terminate _
  refine ⟨fs, (s₁.function.leave (some (.i32 0))).build, ?_, hfits, hsteps.signature_eq⟩
  show (s₁.module.functions.push _).toList = _
  rw [Array.toList_push, hfs, State.start_functions]
  rfl

/-- **No name is given twice in a function**, whatever the tree it is generated for, as long as the
parameters of each subroutine have different names. -/
theorem localNames_nodup_of_generate {name sourceName target : String} {p : Program} {m : Module}
    (h : (generate name sourceName target p).1 = .ok m)
    (hparams : ∀ header ∈ headersAll p, (header.params.map Param.name).Nodup) :
    ∀ f ∈ m.functions, f.localNames.Nodup := by
  intro f hf
  obtain ⟨s, hrun⟩ := runs_of_generate h
  refine (finished_program hrun f hf).named ?_
  obtain ⟨fs, main, hfs, hfits, -, hmain, -⟩ := fits_of_generate h
  rw [hfs, List.mem_append, List.mem_singleton] at hf
  rcases hf with hf | rfl
  · obtain ⟨i, hi⟩ := List.mem_iff_getElem?.mp hf
    obtain ⟨hlt, rfl⟩ := List.getElem?_eq_some_iff.mp hi
    have hheader := hfits.get (by rw [hfits.length_eq]; exact hlt) hlt
    exact hheader.params.nodup (hparams _ (List.get_mem _ _))
  · rw [hmain]
    exact List.nodup_nil

/-- A program with names that call for care: a subroutine is called `t0`, a parameter `entry`, and a
variable is bound at two types. -/
def confusable : Program :=
  let int : Shape := ⟨.int, 0⟩
  let one : Expr := .constant (.int 1) int
  [.subroutine "t0" [⟨"entry", .int⟩, ⟨"t0", .double⟩]
    [.ifThen (.binary .gt (.var "entry" int) one int) [.ret (.var "entry" int)] .none,
     .assign ⟨.var "t0" int, one, .int⟩] .int,
   .assign ⟨.var "t0" int, .call "t0" [one, one] .int, .int⟩,
   .assign ⟨.var "t0" ⟨.double, 0⟩, one, .double⟩,
   .output (.var "t0" ⟨.double, 0⟩)]

theorem confusable_localNames_nodup :
    ∃ m, (generate "confusable" "confusable.pc" "none" confusable).1 = .ok m ∧
    (headersAll confusable).map (fun header => header.params.map Param.name) = [["entry", "t0"]] ∧
    m.functions.map (fun f => f.localNames.length) = [12, 11] ∧
    ∀ f ∈ m.functions, f.localNames.Nodup := by
  have hok : ((generate "confusable" "confusable.pc" "none" confusable).1.toOption.map fun m =>
      m.functions.map fun f => f.localNames.length) = some [12, 11] := by decide +kernel
  obtain ⟨m, hm, hlength⟩ := Option.map_eq_some_iff.mp hok
  have h := eq_ok_of_toOption hm
  refine ⟨m, h, rfl, hlength, localNames_nodup_of_generate h ?_⟩
  decide

end Pseudocode
