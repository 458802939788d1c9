import Mathlib.Data.List.Induction
import Mathlib.Data.List.Nodup
import Pseudocode.Ir.Draft.Module
import Pseudocode.Proofs.Ir.Decoding.Words
import Pseudocode.Proofs.Ir.Names

/-!
Strings are interned once.

A module in the making is asked for addresses of texts, in any order and mixed with declarations and
functions.  Which strings it holds in the end is settled by the requests that ask for a text for the
first time (`introduced`): there is one string for each of them, in their order, under the name that
it asks for or the next of the generated names (`stringsFor`).  Every request keeps that
(`Tracks.serve`), so it holds of every history (`tracks_serveAll`), and what there is to say of the
strings and of their addresses follows from it (`interns_serveAll`).

A text is looked up by its bytes in an index.  Nothing that is asked for puts it out of step with
the strings: since no two of them have the same bytes, it has for every bytes the one place where
they are (`InStep.getElem?_iff`).
-/

namespace Pseudocode.Ir

/-! ### Histories -/

/-- Something that is asked of a module in the making. -/
inductive Request where
  /-- The address of a text, which is to have a given name or a generated one if it is new. -/
  | intern (name? : Option String) (text : String)
  /-- A function that is defined elsewhere. -/
  | declare (name : String) (signature : Signature)
  /-- A function of the module itself. -/
  | define (f : Function)

/-- The text that is to be interned, if any. -/
def Request.text? : Request → Option String
  | intern _ text => some text
  | _ => none

namespace ModuleDraft

/-- Does what is asked.  The answer is the text that has been interned, with its address, if there
is one. -/
def serve (m : ModuleDraft) : Request → Option (String × Value) × ModuleDraft
  | .intern name? text => (some (text, (m.intern name? text).1), (m.intern name? text).2)
  | .declare name signature => (none, (m.declare name signature).2)
  | .define f => (none, m.addFunction f)

/-- Does what is asked, one request after another, and gives all answers. -/
def serveAll (m : ModuleDraft) (requests : List Request) : List (String × Value) × ModuleDraft :=
  requests.foldl (fun done r => (done.1 ++ (done.2.serve r).1.toList, (done.2.serve r).2)) ([], m)

theorem strings_declare (m : ModuleDraft) (name : String) (signature : Signature) :
    (m.declare name signature).2.globals = m.globals ∧
    (m.declare name signature).2.nextString = m.nextString := by
  unfold declare
  split <;> exact ⟨rfl, rfl⟩

theorem serveAll_append_singleton (m : ModuleDraft) (requests : List Request) (r : Request) :
    m.serveAll (requests ++ [r]) =
    ((m.serveAll requests).1 ++ ((m.serveAll requests).2.serve r).1.toList,
      ((m.serveAll requests).2.serve r).2) := by
  simp [serveAll]

end ModuleDraft

/-! ### First requests -/

/-- Takes down a request if it asks for a text that has not been asked for. -/
def introduce (seen : List (Option String × String)) : Request → List (Option String × String)
  | .intern name? text => if text ∈ seen.map Prod.snd then seen else seen ++ [(name?, text)]
  | _ => seen

/-- The texts in the order in which they are first asked for, and the names that they are first
asked for by. -/
def introduced (requests : List Request) : List (Option String × String) :=
  requests.foldl introduce []

theorem introduced_append_singleton (requests : List Request) (r : Request) :
    introduced (requests ++ [r]) = introduce (introduced requests) r := by
  simp [introduced]

/-- How many of the texts are to have generated names. -/
def unnamed (texts : List (Option String × String)) : Nat :=
  (texts.filter fun x => x.1.isNone).length

/-- The strings for some texts, where generated names are counted from `k`. -/
def stringsFor (k : Nat) : List (Option String × String) → List Global
  | [] => []
  | (some name, text) :: rest => ⟨name, utf8 text ++ [0]⟩ :: stringsFor k rest
  | (none, text) :: rest => ⟨s!".str.{k}", utf8 text ++ [0]⟩ :: stringsFor (k + 1) rest

section

variable {requests : List Request} {texts : List (Option String × String)} {name? : Option String}
  {name text text' : String} {k : Nat} {g : Global}

theorem mem_of_mem_introduced (h : (name?, text) ∈ introduced requests) :
    .intern name? text ∈ requests := by
  induction requests using List.reverseRecOn with
  | nil => cases h
  | append_singleton requests r ih =>
    rw [introduced_append_singleton] at h
    cases r with
    | intern name?' text' =>
      rw [introduce] at h
      split at h
      · exact List.mem_append_left _ (ih h)
      · rcases List.mem_append.1 h with hmem | hmem
        · exact List.mem_append_left _ (ih hmem)
        · cases List.mem_singleton.1 hmem
          exact List.mem_append_right _ List.mem_cons_self
    | declare _ _ => exact List.mem_append_left _ (ih h)
    | define _ => exact List.mem_append_left _ (ih h)

/-- No text is asked for the first time twice. -/
theorem nodup_introduced (requests : List Request) :
    ((introduced requests).map Prod.snd).Nodup := by
  induction requests using List.reverseRecOn with
  | nil => exact List.nodup_nil
  | append_singleton requests r ih =>
    rw [introduced_append_singleton]
    cases r with
    | intern name? text =>
      rw [introduce]
      split
      · exact ih
      · next hnew =>
          rw [List.map_append, List.nodup_append]
          refine ⟨ih, List.nodup_singleton _, fun a ha b hb hab => hnew ?_⟩
          have htext : b = text := List.mem_singleton.1 hb
          rw [← htext, ← hab]
          exact ha
    | declare _ _ => exact ih
    | define _ => exact ih

/-! ### Strings for texts -/

theorem bytes_stringsFor (k : Nat) (texts : List (Option String × String)) :
    (stringsFor k texts).map Global.bytes = texts.map fun x => utf8 x.2 ++ [0] := by
  fun_induction stringsFor k texts with
  | case1 => rfl
  | case2 k name text rest ih => rw [List.map_cons, List.map_cons, ih]
  | case3 k text rest ih => rw [List.map_cons, List.map_cons, ih]

theorem stringsFor_append_singleton (k : Nat) (texts : List (Option String × String))
    (x : Option String × String) :
    stringsFor k (texts ++ [x]) = stringsFor k texts ++ stringsFor (k + unnamed texts) [x] := by
  fun_induction stringsFor k texts with
  | case1 => rfl
  | case2 k name text rest ih => rw [List.cons_append, stringsFor, ih, List.cons_append]; rfl
  | case3 k text rest ih =>
    rw [List.cons_append, stringsFor, ih, List.cons_append, Nat.add_assoc, Nat.add_comm 1]
    rfl

/-- A string has the name that its text is asked for by, or a generated one. -/
theorem name_of_mem_stringsFor (h : g ∈ stringsFor k texts) :
    (∃ text, (some g.name, text) ∈ texts) ∨ ∃ j, k ≤ j ∧ g.name = s!".str.{j}" := by
  fun_induction stringsFor k texts with
  | case1 => cases h
  | case2 k name text rest ih =>
    rcases List.mem_cons.1 h with rfl | hmem
    · exact .inl ⟨text, List.mem_cons_self⟩
    · exact (ih hmem).imp_left fun ⟨text, ht⟩ => ⟨text, List.mem_cons_of_mem _ ht⟩
  | case3 k text rest ih =>
    rcases List.mem_cons.1 h with rfl | hmem
    · exact .inr ⟨k, Nat.le_refl k, rfl⟩
    · rcases ih hmem with ⟨text, ht⟩ | ⟨j, hj, hname⟩
      · exact .inl ⟨text, List.mem_cons_of_mem _ ht⟩
      · exact .inr ⟨j, by omega, hname⟩

/-- The generated names are counted without gaps, in the order of the texts that they are generated
for. -/
theorem generated_stringsFor (k : Nat) (texts : List (Option String × String)) :
    ((texts.zip (stringsFor k texts)).filter fun x => x.1.1.isNone).map (fun x => x.2.name) =
      (List.range' k (unnamed texts)).map fun j => s!".str.{j}" := by
  fun_induction stringsFor k texts with
  | case1 => rfl
  | case2 k name text rest ih => exact ih
  | case3 k text rest ih =>
    rw [List.zip_cons_cons, List.filter_cons_of_pos rfl, List.map_cons, ih]
    rfl

/-- The other strings have the names that they are asked for by. -/
theorem named_stringsFor (h : ((some name, text), g) ∈ texts.zip (stringsFor k texts)) :
    g.name = name := by
  fun_induction stringsFor k texts with
  | case1 => cases h
  | case2 k name' text' rest ih =>
    rcases List.mem_cons.1 h with heq | hmem
    · cases heq
      rfl
    · exact ih hmem
  | case3 k text' rest ih =>
    rcases List.mem_cons.1 h with heq | hmem
    · cases heq
    · exact ih hmem

/-- Names are different if the given ones are, and are not like generated ones. -/
theorem nodup_names_stringsFor (hdistinct : (texts.map Prod.snd).Nodup)
    (hone : ∀ name text text', (some name, text) ∈ texts → (some name, text') ∈ texts →
      text = text')
    (hfree : ∀ name text, (some name, text) ∈ texts → ¬ ".str.".toList <+: name.toList) :
    ((stringsFor k texts).map Global.name).Nodup := by
  fun_induction stringsFor k texts with
  | case1 => exact List.nodup_nil
  | case2 k name text rest ih =>
    obtain ⟨hnew, hdistinct⟩ := List.nodup_cons.1 hdistinct
    rw [List.map_cons, List.nodup_cons]
    refine ⟨fun hmem => ?_, ih hdistinct
      (fun n t t' ht ht' => hone n t t' (List.mem_cons_of_mem _ ht) (List.mem_cons_of_mem _ ht'))
      (fun n t ht => hfree n t (List.mem_cons_of_mem _ ht))⟩
    obtain ⟨g, hg, hname⟩ := List.mem_map.1 hmem
    rcases name_of_mem_stringsFor hg with ⟨text', htext'⟩ | ⟨j, -, hj⟩
    · -- The same name for another text.
      rw [hname] at htext'
      rw [hone name text text' List.mem_cons_self (List.mem_cons_of_mem _ htext')] at hnew
      exact hnew (List.mem_map.2 ⟨_, htext', rfl⟩)
    · have hgenerated : name = ".str." ++ toString j := hname.symm.trans hj
      exact hfree name text List.mem_cons_self
        ⟨(toString j).toList, by rw [hgenerated, String.toList_append]⟩
  | case3 k text rest ih =>
    obtain ⟨-, hdistinct⟩ := List.nodup_cons.1 hdistinct
    rw [List.map_cons, List.nodup_cons]
    refine ⟨fun hmem => ?_, ih hdistinct
      (fun n t t' ht ht' => hone n t t' (List.mem_cons_of_mem _ ht) (List.mem_cons_of_mem _ ht'))
      (fun n t ht => hfree n t (List.mem_cons_of_mem _ ht))⟩
    obtain ⟨g, hg, hname⟩ := List.mem_map.1 hmem
    rcases name_of_mem_stringsFor hg with ⟨text', htext'⟩ | ⟨j, hj, hgenerated⟩
    · have hgenerated : g.name = ".str." ++ toString k := hname
      exact hfree g.name text' (List.mem_cons_of_mem _ htext')
        ⟨(toString k).toList, by rw [hgenerated, String.toList_append]⟩
    · -- The numbers that follow are larger.
      have heq : ".str." ++ toString j = ".str." ++ toString k := hgenerated.symm.trans hname
      have hnumber := Draft.toString_nat_inj ((String.append_right_inj _).1 heq)
      omega

end

/-! ### Every request keeps it -/

/-- What a module in the making holds after some requests, and what has been answered. -/
structure Tracks (requests : List Request) (answers : List (String × Value)) (m : ModuleDraft) :
    Prop where
  globals : m.globals.toList = stringsFor 0 (introduced requests)
  nextString : m.nextString = unnamed (introduced requests)
  answered : answers.map Prod.fst = requests.filterMap Request.text?
  found : ∀ text v, (text, v) ∈ answers → ∃ g ∈ m.globals.toList, g.bytes = utf8 text ++ [0] ∧
    v = g.address

namespace Tracks

variable {requests : List Request} {answers : List (String × Value)} {m : ModuleDraft}
  {text : String}

/-- A text has been asked for exactly if there is a string with its bytes. -/
theorem mem_introduced_iff (h : Tracks requests answers m) :
    text ∈ (introduced requests).map Prod.snd ↔
    ∃ g ∈ m.globals.toList, g.bytes = utf8 text ++ [0] := by
  have hbytes : m.globals.toList.map Global.bytes = (introduced requests).map fun x => utf8 x.2 ++
    [0] := by
    rw [h.globals, bytes_stringsFor]
  constructor
  · intro hmem
    obtain ⟨x, hx, rfl⟩ := List.mem_map.1 hmem
    have hin : utf8 x.2 ++ [0] ∈ m.globals.toList.map Global.bytes := by
      rw [hbytes]
      exact List.mem_map.2 ⟨x, hx, rfl⟩
    exact List.mem_map.1 hin
  · rintro ⟨g, hg, hgbytes⟩
    have hin : utf8 text ++ [0] ∈ (introduced requests).map fun x => utf8 x.2 ++ [0] := by
      rw [← hbytes, ← hgbytes]
      exact List.mem_map.2 ⟨g, hg, rfl⟩
    obtain ⟨x, hx, heq⟩ := List.mem_map.1 hin
    exact List.mem_map.2 ⟨x, hx, utf8_inj (List.append_cancel_right heq)⟩

theorem aside (h : Tracks requests answers m) {r : Request} {m' : ModuleDraft} (hr : r.text? = none)
    (hglobals : m'.globals = m.globals) (hnext : m'.nextString = m.nextString) :
    Tracks (requests ++ [r]) (answers ++ []) m' := by
  have hintroduced : introduced (requests ++ [r]) = introduced requests := by
    rw [introduced_append_singleton]
    cases r <;> first | rfl | cases hr
  rw [List.append_nil]
  refine ⟨?_, ?_, ?_, ?_⟩
  · rw [hglobals, hintroduced, h.globals]
  · rw [hnext, hintroduced, h.nextString]
  · rw [h.answered, List.filterMap_append, List.filterMap_cons_none hr, List.filterMap_nil,
      List.append_nil]
  · rw [hglobals]
    exact h.found

theorem again (h : Tracks requests answers m) (name? : Option String) {g : Global}
    (hg : g ∈ m.globals.toList) (hbytes : g.bytes = utf8 text ++ [0]) :
    Tracks (requests ++ [.intern name? text]) (answers ++ [(text, g.address)]) m := by
  have hintroduced : introduced (requests ++ [.intern name? text]) = introduced requests := by
    rw [introduced_append_singleton, introduce, if_pos (h.mem_introduced_iff.2 ⟨g, hg, hbytes⟩)]
  refine ⟨?_, ?_, ?_, ?_⟩
  · rw [hintroduced, h.globals]
  · rw [hintroduced, h.nextString]
  · rw [List.map_append, h.answered, List.filterMap_append]
    rfl
  · intro text' v hmem
    rcases List.mem_append.1 hmem with hold | hnew
    · exact h.found text' v hold
    · cases List.mem_singleton.1 hnew
      exact ⟨g, hg, hbytes, rfl⟩

/-- A text that is new, with the string that is made for it. -/
theorem first (h : Tracks requests answers m) (name? : Option String) {g : Global}
    {m' : ModuleDraft} (hnew : ∀ g ∈ m.globals.toList, g.bytes ≠ utf8 text ++ [0])
    (hg : stringsFor m.nextString [(name?, text)] = [g]) (hglobals : m'.globals = m.globals.push g)
    (hnext : m'.nextString = m.nextString + unnamed [(name?, text)]) :
    Tracks (requests ++ [.intern name? text]) (answers ++ [(text, g.address)]) m' := by
  have hintroduced : introduced (requests ++ [.intern name? text]) = introduced requests ++
    [(name?, text)] := by
    rw [introduced_append_singleton, introduce, if_neg]
    rw [h.mem_introduced_iff]
    rintro ⟨g, hmem, hbytes⟩
    exact hnew g hmem hbytes
  have hlist : m'.globals.toList = m.globals.toList ++ [g] := by rw [hglobals, Array.toList_push]
  refine ⟨?_, ?_, ?_, ?_⟩
  · rw [hlist, hintroduced, stringsFor_append_singleton, Nat.zero_add, ← h.nextString, hg,
      h.globals]
  · rw [hnext, hintroduced, h.nextString, unnamed, unnamed, unnamed, List.filter_append,
      List.length_append]
  · rw [List.map_append, h.answered, List.filterMap_append]
    rfl
  · intro text' v hmem
    rw [hlist]
    rcases List.mem_append.1 hmem with hold | hlast
    · obtain ⟨g', hg', hfound⟩ := h.found text' v hold
      exact ⟨g', List.mem_append_left _ hg', hfound⟩
    · cases List.mem_singleton.1 hlast
      have hbytes := bytes_stringsFor m.nextString [(name?, text)]
      rw [hg] at hbytes
      exact ⟨g, List.mem_append_right _ List.mem_cons_self, (List.cons.inj hbytes).1, rfl⟩

/-- Whatever is asked next, the module holds what it should. -/
theorem serve (h : Tracks requests answers m) (r : Request) :
    Tracks (requests ++ [r]) (answers ++ (m.serve r).1.toList) (m.serve r).2 := by
  cases r with
  | intern name? text =>
    show Tracks _ (answers ++ [(text, (m.intern name? text).1)]) (m.intern name? text).2
    rw [ModuleDraft.intern.eq_def]
    dsimp only
    split
    · next g hfound =>
        obtain ⟨hg, hbytes⟩ := ModuleDraft.string?_eq_some hfound
        exact h.again name? (Array.mem_toList_iff.2 hg) hbytes
    · next hnone =>
        have hnew : ∀ g ∈ m.globals.toList, g.bytes ≠ utf8 text ++ [0] :=
          fun g hg => ModuleDraft.string?_eq_none hnone g (Array.mem_toList_iff.1 hg)
        cases name? with
        | some name => exact h.first (some name) hnew rfl rfl rfl
        | none => exact h.first none hnew rfl rfl rfl
  | declare name signature =>
    obtain ⟨hglobals, hnext⟩ := m.strings_declare name signature
    exact h.aside rfl hglobals hnext
  | define f => exact h.aside rfl rfl rfl

end Tracks

/-- **Whatever has been asked, in whatever order**, a module that began empty holds what it
should. -/
theorem tracks_serveAll (name target : String) (requests : List Request) :
    Tracks requests ((ModuleDraft.empty name target).serveAll requests).1
      ((ModuleDraft.empty name target).serveAll requests).2 := by
  induction requests using List.reverseRecOn with
  | nil => exact ⟨rfl, rfl, rfl, fun _ _ hmem => by cases hmem⟩
  | append_singleton requests r ih =>
    rw [ModuleDraft.serveAll_append_singleton]
    exact ih.serve r

/-! ### What follows for strings and their addresses -/

/-- Is every name that texts are asked for by used for one text only, and unlike the generated
names? -/
structure NamedApart (requests : List Request) : Prop where
  oneText : ∀ name text text', .intern (some name) text ∈ requests →
    .intern (some name) text' ∈ requests → text = text'
  notGenerated : ∀ name text, .intern (some name) text ∈ requests → ¬ ".str.".toList <+: name.toList

/-- What interning comes to: the strings of a finished module, and the addresses that were given for
texts. -/
structure Interns (requests : List Request) (answers : List (String × Value)) (m : Module) :
    Prop where
  /-- Every string is a text that has been asked for, with a NUL behind it. -/
  texts : ∀ g ∈ m.globals, ∃ name? text, .intern name? text ∈ requests ∧ g.bytes = utf8 text ++ [0]
  /-- No two strings are the same. -/
  distinct : (m.globals.map Global.bytes).Nodup
  /-- Every text that is asked for is given an address, in order. -/
  answered : answers.map Prod.fst = requests.filterMap Request.text?
  /-- The address that was given for a text is that of a string with exactly this text. -/
  addresses : ∀ text v, (text, v) ∈ answers →
    ∃ g ∈ m.globals, g.bytes = utf8 text ++ [0] ∧
    v = .global g.name (.ptr (.array g.bytes.length .i8))
  /-- The same text is always given the same address. -/
  same : ∀ text v v', (text, v) ∈ answers → (text, v') ∈ answers → v = v'
  /-- Strings stand in the order in which their texts are first asked for. -/
  order : m.globals.map Global.bytes = (introduced requests).map fun x => utf8 x.2 ++ [0]
  /-- A text that is first asked for by a name has that name. -/
  named : ∀ name text g, ((some name, text), g) ∈ (introduced requests).zip m.globals →
    g.name = name
  /-- The generated names are `.str.0`, `.str.1`, and so on, in that order. -/
  generated : (((introduced requests).zip m.globals).filter fun x => x.1.1.isNone).map
    (fun x => x.2.name) = (List.range (unnamed (introduced requests))).map fun k => s!".str.{k}"
  /-- Different texts are given different addresses, unless a name is used twice or is like a
  generated one. -/
  apart : NamedApart requests → ∀ text text' v v', (text, v) ∈ answers → (text', v') ∈ answers →
    text ≠ text' → v ≠ v'

/-- Where no bytes occur twice, the index has the places of strings and no others. -/
theorem InStep.getElem?_iff {globals : Array Global} {index : StringIndex}
    (h : InStep globals index)
    (hdistinct : (globals.toList.map Global.bytes).Nodup) (bytes : List UInt8) (i : Nat) :
    index[bytes]? = some i ↔ globals[i]?.map Global.bytes = some bytes := by
  refine ⟨h.located bytes i, fun hi => ?_⟩
  obtain ⟨g, hg, rfl⟩ := Option.map_eq_some_iff.1 hi
  obtain ⟨j, hj⟩ := Option.isSome_iff_exists.1
    (Std.TreeMap.mem_iff_isSome_getElem?.1 (h.indexed g (Array.mem_of_getElem? hg)))
  have hlist : ∀ k : Nat, (globals.toList.map Global.bytes)[k]? = globals[k]?.map Global.bytes := by
    simp
  have hlt := (List.getElem?_eq_some_iff.1 ((hlist i).trans hi)).1
  have hij : i = j := by
    rw [← List.getElem?_inj hlt hdistinct, hlist, hlist, hi, h.located _ j hj]
  rw [hj, hij]

/-- **Interning is exact, over any history**, and the index is in step with the strings. -/
theorem interns_serveAll (name target : String) (requests : List Request) :
    Interns requests ((ModuleDraft.empty name target).serveAll requests).1
        ((ModuleDraft.empty name target).serveAll requests).2.build ∧
      ∀ bytes i, ((ModuleDraft.empty name target).serveAll requests).2.index[bytes]? = some i ↔
        ((ModuleDraft.empty name target).serveAll requests).2.globals[i]?.map Global.bytes =
        some bytes := by
  have h := tracks_serveAll name target requests
  generalize (ModuleDraft.empty name target).serveAll requests = done at h
  have hglobals : done.2.build.globals = stringsFor 0 (introduced requests) := h.globals
  have hbytes : done.2.build.globals.map Global.bytes = (introduced requests).map
    fun x => utf8 x.2 ++ [0] := by
    rw [hglobals, bytes_stringsFor]
  have hdistinct : (done.2.build.globals.map Global.bytes).Nodup := by
    have hinj : Function.Injective fun text : String => utf8 text ++ [0] := fun _ _ heq =>
      utf8_inj (List.append_cancel_right heq)
    have hmap := (nodup_introduced requests).map hinj
    rw [List.map_map] at hmap
    rw [hbytes]
    exact hmap
  -- The string that an address was given for is the only one with these bytes.
  have hunique : ∀ g ∈ done.2.build.globals, ∀ g' ∈ done.2.build.globals, g.bytes = g'.bytes →
    g = g' :=
    fun g hg g' hg' heq => List.inj_on_of_nodup_map hdistinct hg hg' heq
  refine ⟨⟨?_, hdistinct, h.answered, h.found, ?_, hbytes, ?_, ?_, ?_⟩,
    done.2.inStep.getElem?_iff hdistinct⟩
  · intro g hg
    have hmem : g.bytes ∈ done.2.build.globals.map Global.bytes := List.mem_map_of_mem hg
    rw [hbytes] at hmem
    obtain ⟨⟨name?, text⟩, hx, heq⟩ := List.mem_map.1 hmem
    exact ⟨name?, text, mem_of_mem_introduced hx, heq.symm⟩
  · intro text v v' hv hv'
    obtain ⟨g, hg, hgbytes, rfl⟩ := h.found text v hv
    obtain ⟨g', hg', hgbytes', rfl⟩ := h.found text v' hv'
    rw [hunique g hg g' hg' (hgbytes.trans hgbytes'.symm)]
  · intro name text g hmem
    rw [hglobals] at hmem
    exact named_stringsFor hmem
  · rw [hglobals, generated_stringsFor, List.range_eq_range']
  · intro hnames text text' v v' hv hv' hne heq
    obtain ⟨g, hg, hgbytes, rfl⟩ := h.found text v hv
    obtain ⟨g', hg', hgbytes', rfl⟩ := h.found text' v' hv'
    have hnodup : (done.2.build.globals.map Global.name).Nodup := by
      rw [hglobals]
      exact nodup_names_stringsFor (nodup_introduced requests)
        (fun n t t' ht ht' => hnames.oneText n t t' (mem_of_mem_introduced ht)
          (mem_of_mem_introduced ht'))
        (fun n t ht => hnames.notGenerated n t (mem_of_mem_introduced ht))
    have hsame : g = g' := List.inj_on_of_nodup_map hnodup hg hg' (Value.global.inj heq).1
    rw [hsame, hgbytes'] at hgbytes
    exact hne (utf8_inj (List.append_cancel_right hgbytes)).symm

/-- A format, a literal that is the same text, and a named request for a text that has a generated
name already. -/
def formatAndLiterals : List Request :=
  [.intern (some "fmt_int") "%d", .intern none "hi", .declare "puts" ⟨.i32, [.bytes], false⟩,
    .intern none "%d", .intern (some "greeting") "hi", .intern none ""]

theorem formatAndLiterals_interns :
    ((ModuleDraft.empty "a" "b").serveAll formatAndLiterals).2.build.globals.map Global.name =
        ["fmt_int", ".str.0", ".str.1"] ∧
      ∀ text text' v v', (text, v) ∈ ((ModuleDraft.empty "a" "b").serveAll formatAndLiterals).1 →
        (text', v') ∈ ((ModuleDraft.empty "a" "b").serveAll formatAndLiterals).1 → text ≠ text' →
        v ≠ v' := by
  refine ⟨by decide +kernel, (interns_serveAll "a" "b" formatAndLiterals).1.apart ⟨?_, ?_⟩⟩
  · intro name text text' h h'
    simp only [formatAndLiterals, List.mem_cons, Request.intern.injEq, Option.some.injEq,
      reduceCtorEq, false_and, false_or, List.not_mem_nil, or_false] at h h'
    rcases h with ⟨rfl, rfl⟩ | ⟨rfl, rfl⟩ <;> rcases h' with ⟨hname, rfl⟩ | ⟨hname, rfl⟩ <;>
      first | rfl | exact absurd hname (by decide)
  · intro name text h
    simp only [formatAndLiterals, List.mem_cons, Request.intern.injEq, Option.some.injEq,
      reduceCtorEq, false_and, false_or, List.not_mem_nil, or_false] at h
    rcases h with ⟨rfl, rfl⟩ | ⟨rfl, rfl⟩ <;> decide

end Pseudocode.Ir
