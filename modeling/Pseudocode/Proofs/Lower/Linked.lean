import Pseudocode.Proofs.Grammar.Names
import Pseudocode.Proofs.Lower.Headers

/-!
Generated modules link.

The invariant says of every instruction that it refers to what there is (`State.Allows`).  That
gives the calls and the addresses of a module.  A call of a subroutine is one of a function, because
a function with the signature of the subroutine is finished before the program ends
(`Finishes.signatures`).

The names of a module are of three kinds.  Routines, formats and `main` have reserved names, which
no subroutine has; strings have names that begin with a dot; and the names of subroutines are words
and have no dot in them.
-/

namespace Pseudocode

variable {name sourceName target : String}

open Lower Ir

/-! ### Modules -/

/-- **Every instruction of a module refers to what the module has**, whatever the tree it is
generated for. -/
theorem only_of_generate {p : Program} {m : Module}
    (h : (generate name sourceName target p).1 = .ok m) :
    ∀ f ∈ m.functions, f.Only (Instr.Linked m.globals m.Provides) := by
  obtain ⟨s, hrun⟩ := runs_of_generate h
  obtain ⟨s₁, hblock, rfl⟩ := runs_program hrun
  have hs₁ := block_sound .top p _ _ (sound_start name sourceName target)
    (opened_start name sourceName target) hblock
  have hfinishes := block_finishes .top p _ _ (opened_start name sourceName target) hblock
  -- A subroutine that has been declared has its function.
  have hallows : ∀ i, s₁.Allows i → i.Linked s₁.module.globals.toList
      (s₁.module.addFunction (s₁.function.leave (some (.i32 0))).build).build.Provides := by
    intro i hi
    refine hi.mono (List.Subset.refl _) fun callee signature hcallable => ?_
    rcases hcallable with hroutine | ⟨sub, hsub, rfl⟩
    · refine .inl (Array.mem_toList_iff.mpr ?_)
      rw [← hs₁.stocked.declarations] at hroutine
      exact hroutine
    · rcases hfinishes.signatures callee sub hsub with hstart | ⟨f, hf, hname, hsignature⟩
      · have hempty : (∅ : Std.TreeMap String Subroutine)[callee]? = some sub := hstart
        simp at hempty
      · exact .inr ⟨f, Array.mem_toList_iff.mpr (Array.mem_push.mpr (.inl hf)), hname, hsignature⟩
  exact fun f hf => (finished_functions hblock f hf).2.mono hallows

theorem toList_stringName (k : Nat) :
    (stringName k).toList = '.' :: "str.".toList ++ (toString k).toList := by
  rw [stringName, String.toList_append]
  rfl

theorem stringName_inj {j k : Nat} (h : stringName j = stringName k) : j = k := by
  have hlist := congrArg String.toList h
  rw [toList_stringName, toList_stringName, List.append_right_inj] at hlist
  exact Draft.toString_nat_inj (String.toList_inj.mp hlist)

/-- The names that are given apart from those of strings and subroutines are reserved, and
differ. -/
theorem fixedNames :
    let fixed := Routines.formats.toList.map Global.name ++
    Routines.declarations.toList.map Declaration.name ++ ["main"]
    fixed.Nodup ∧ fixed ⊆ Routines.reserved ∧ ∀ name ∈ Routines.reserved, '.' ∉ name.toList := by
  decide

theorem map_name_of_fits {headers : List Header} {fs : List Function}
    (h : List.Forall₂ Fits headers fs) : fs.map Function.name = headers.map Header.name := by
  induction h with
  | nil => rfl
  | cons hfits _ ih => rw [List.map_cons, List.map_cons, hfits.name, ih]

/-- **A module gives no name twice**, if the names of subroutines have no dot in them. -/
theorem names_of_generate {p : Program} {m : Module}
    (h : (generate name sourceName target p).1 = .ok m)
    (hwords : ∀ header ∈ headersAll p, '.' ∉ header.name.toList) : m.names.Nodup := by
  obtain ⟨fs, main, hfunctions, hfits, hmain, -, -⟩ := fits_of_generate h
  obtain ⟨s, hrun⟩ := runs_of_generate h
  obtain ⟨s₁, hblock, rfl⟩ := runs_program hrun
  have hs₁ := block_sound .top p _ _ (sound_start name sourceName target)
    (opened_start name sourceName target) hblock
  have hfinishes := block_finishes .top p _ _ (opened_start name sourceName target) hblock
  obtain ⟨hfixed, hreserved, hdotless⟩ := fixedNames
  have hstrings : ∀ x ∈ (List.range s₁.module.nextString).map stringName, '.' ∈ x.toList := by
    intro x hx
    obtain ⟨k, -, rfl⟩ := List.mem_map.mp hx
    rw [toList_stringName]
    exact List.mem_cons_self
  have hsubs : ∀ x ∈ (headersAll p).map Header.name, '.' ∉ x.toList ∧ x ∉ Routines.reserved := by
    intro x hx
    obtain ⟨header, hheader, rfl⟩ := List.mem_map.mp hx
    exact ⟨hwords header hheader, (hfinishes.fresh header hheader).2⟩
  have hall : ((Routines.formats.toList.map Global.name ++
    Routines.declarations.toList.map Declaration.name ++ ["main"]) ++
      ((List.range s₁.module.nextString).map stringName ++
        (headersAll p).map Header.name)).Nodup := by
    refine hfixed.append (.append ?_ hfinishes.distinct ?_) ?_
    · exact List.nodup_range.map fun j k hjk => stringName_inj hjk
    · exact fun x hstring hsub => (hsubs x hsub).1 (hstrings x hstring)
    · intro x hx hother
      rcases List.mem_append.mp hother with hstring | hsub
      · exact hdotless x (hreserved hx) (hstrings x hstring)
      · exact (hsubs x hsub).2 (hreserved hx)
  refine (List.Perm.nodup_iff ?_).mp hall
  show List.Perm _ (s₁.module.globals.toList.map _ ++ s₁.module.declarations.toList.map _ ++
    List.map _ _)
  rw [hfunctions, List.map_append, map_name_of_fits hfits, hs₁.stocked.names,
    hs₁.stocked.declarations, List.map_cons, hmain]
  refine List.perm_iff_count.mpr fun x => ?_
  simp only [List.count_append, List.map_nil]
  omega

/-- **A module links**, if it is generated for a program that has been read from a text: it gives no
name twice, it calls only what it declares or defines, with the signature that this has, and it uses
the addresses of its own strings only, with their sizes.  Its functions are one for each subroutine
of the program, in the order in which the declarations end, and then `main`. -/
theorem links_of_generate {source name sourceName target : String} {p : Program} {m : Module}
    (hparse : parse (scan source).tokens = .ok p)
    (h : (generate name sourceName target p).1 = .ok m) :
    m.Links ∧ ∃ fs main, m.functions = fs ++ [main] ∧ List.Forall₂ Fits (headersAll p) fs ∧
    main.name = "main" ∧
      main.params = [] ∧ main.ret = .i32 := by
  have honly := only_of_generate h
  refine ⟨⟨?_, ?_, ?_⟩, fits_of_generate h⟩
  · exact names_of_generate h
      fun header hheader => (isWord_of_parse hparse header hheader).dot_notMem
  · intro f hf b hb dest callee signature args hcall
    exact ((honly f hf).instrs b hb _ hcall).callee dest callee signature args rfl
  · intro f hf b hb x ty hoperand
    rcases List.mem_append.mp hoperand with hinstr | hterminator
    · obtain ⟨i, hi, hmem⟩ := List.mem_flatMap.mp hinstr
      rcases ((honly f hf).instrs b hb i hi).operands _ hmem with hlocal | ⟨g, hg, haddress⟩
      · exact hlocal.elim
      · obtain ⟨rfl, rfl⟩ := Value.global.inj haddress
        exact ⟨g, hg, rfl, rfl⟩
    · exact ((honly f hf).terminators b hb _ hterminator).elim

/-- Subroutines that call themselves and each other, one of them declared in an arm, and strings
that look like names and formats. -/
def mutualCalls : String :=
  "INT SUBROUTINE str(INT n)\nIF n > 0 THEN\nRETURN str(n - 1) + 1\nENDIF\nENDSUBROUTINE\n" ++
  "IF 1 THEN\nDOUBLE SUBROUTINE half(DOUBLE x, INT k)\nRETURN x / str(k)\nENDSUBROUTINE\nENDIF\n" ++
  "s = \"str\"\nOUTPUT s + \"%d\"\nOUTPUT half(3, str(2))\n"

theorem mutualCalls_links : ∃ p m, parse (scan mutualCalls).tokens = .ok p ∧
    (generate "calls" "calls.pc" "none" p).1 = .ok m ∧
    m.names = ["fmt_double", "fmt_string", "fmt_int", "fmt_newline", ".str.0", "printf", "scanf",
      "malloc", "memcpy", "realloc", "str", "half", "main"] ∧ m.Links := by
  have hok : ((parse (scan mutualCalls).tokens).toOption.bind fun p =>
      (generate "calls" "calls.pc" "none" p).1.toOption.map Module.names) =
        some ["fmt_double", "fmt_string", "fmt_int",
        "fmt_newline", ".str.0", "printf", "scanf", "malloc", "memcpy", "realloc", "str", "half",
        "main"] := by
    decide +kernel
  obtain ⟨p, hp, hok⟩ := Option.bind_eq_some_iff.mp hok
  obtain ⟨m, hm, hnames⟩ := Option.map_eq_some_iff.mp hok
  have hparse := eq_ok_of_toOption hp
  have h := eq_ok_of_toOption hm
  exact ⟨p, m, hparse, h, hnames, (links_of_generate hparse h).1⟩

end Pseudocode
