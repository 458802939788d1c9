import Pseudocode.Ir.Render
import Std.Data.TreeMap

/-!
A module in the making.

Strings are interned: asking for a text that is already there gives the address it has, under
whatever name it came first.  A text that is new is stored under the name that it is asked for by,
or under the next of the names `.str.0`, `.str.1`, and so on.  Whether a text is there is looked up
in an index, which goes from the bytes of a string to its place among the globals and is kept in
step with them (`InStep`).  A function is declared once, and later declarations of the same name
change nothing.
-/

namespace Pseudocode.Ir

/-- The places of strings, by their bytes. -/
abbrev StringIndex := Std.TreeMap (List UInt8) Nat

/-- The index says where strings are, and leaves none of them out. -/
structure InStep (globals : Array Global) (index : StringIndex) : Prop where
  located : ∀ bytes i, index[bytes]? = some i → globals[i]?.map Global.bytes = some bytes
  indexed : ∀ g ∈ globals, g.bytes ∈ index

namespace InStep

theorem empty : InStep #[] {} :=
  ⟨by simp, by simp⟩

/-- A string that is put behind the others, and into the index, is where the index says. -/
theorem push {globals : Array Global} {index : StringIndex} (h : InStep globals index)
    (g : Global) : InStep (globals.push g) (index.insert g.bytes globals.size) := by
  constructor
  · intro bytes i hi
    rw [Std.TreeMap.getElem?_insert] at hi
    split at hi
    · next heq =>
        cases hi
        rw [Array.getElem?_push_size, Option.map_some, Std.LawfulEqCmp.eq_of_compare heq]
    · obtain ⟨g', hg', hbytes⟩ := Option.map_eq_some_iff.1 (h.located bytes i hi)
      have hlt := (Array.getElem?_eq_some_iff.1 hg').1
      rw [Array.getElem?_push_lt hlt, Option.map_some, ← hbytes,
        (Array.getElem?_eq_some_iff.1 hg').2]
  · intro g' hg'
    rw [Std.TreeMap.mem_insert]
    rcases Array.mem_push.1 hg' with hold | rfl
    · exact .inr (h.indexed g' hold)
    · exact .inl Std.ReflCmp.compare_self

end InStep

/-- A module in the making. -/
structure ModuleDraft where
  name : String
  sourceName : String
  target : String
  globals : Array Global := #[]
  declarations : Array Declaration := #[]
  functions : Array Function := #[]
  /-- Where the globals are, by their bytes. -/
  index : StringIndex := {}
  /-- The number of the next generated name. -/
  nextString : Nat := 0
  inStep : InStep globals index

namespace ModuleDraft

/-- A module with nothing in it, which is its own source. -/
def empty (name target : String) : ModuleDraft :=
  { name, sourceName := name, target, inStep := .empty }

/-- The signature that a name is declared with. -/
def declaration? (m : ModuleDraft) (name : String) : Option Signature :=
  (m.declarations.find? (·.name == name)).map Declaration.signature

/-- Declares a function, and gives the signature that it is declared with. -/
def declare (m : ModuleDraft) (name : String) (signature : Signature) : Signature × ModuleDraft :=
  match m.declaration? name with
  | some existing => (existing, m)
  | none => (signature, { m with declarations := m.declarations.push ⟨name, signature⟩ })

/-- The string of the given bytes, by the place that the index has for them. -/
def string? (m : ModuleDraft) (bytes : List UInt8) : Option Global := do
  m.globals[← m.index[bytes]?]?

/-- What the index leads to is a string of these bytes. -/
theorem string?_eq_some {m : ModuleDraft} {bytes : List UInt8} {g : Global}
    (h : m.string? bytes = some g) : g ∈ m.globals ∧ g.bytes = bytes := by
  obtain ⟨i, hi, hg⟩ := Option.bind_eq_some_iff.1 h
  refine ⟨Array.mem_of_getElem? hg, ?_⟩
  have hlocated := m.inStep.located bytes i hi
  rw [hg] at hlocated
  exact Option.some.inj hlocated

/-- Where the index leads nowhere there is no string of these bytes. -/
theorem string?_eq_none {m : ModuleDraft} {bytes : List UInt8} (h : m.string? bytes = none) :
    ∀ g ∈ m.globals, g.bytes ≠ bytes := by
  rintro g hg rfl
  obtain ⟨i, hi⟩ := Option.isSome_iff_exists.1
    (Std.TreeMap.mem_iff_isSome_getElem?.1 (m.inStep.indexed g hg))
  have hlocated := m.inStep.located g.bytes i hi
  rw [string?, hi] at h
  have hnone : m.globals[i]? = none := h
  rw [hnone] at hlocated
  cases hlocated

/-- Adds a string, and puts its place into the index. -/
def addString (m : ModuleDraft) (g : Global) : ModuleDraft :=
  { m with
    globals := m.globals.push g
    index := m.index.insert g.bytes m.globals.size
    inStep := m.inStep.push g }

@[simp] theorem toList_addString (m : ModuleDraft) (g : Global) :
    (m.addString g).globals.toList = m.globals.toList ++ [g] :=
  Array.toList_push

/-- The address of a text with a NUL after it.  If the text is new it gets the given name, or else
a generated one. -/
def intern (m : ModuleDraft) (name? : Option String) (text : String) : Value × ModuleDraft :=
  let bytes := utf8 text ++ [0]
  match m.string? bytes with
  | some g => (g.address, m)
  | none =>
    match name? with
    | some name =>
      let g : Global := ⟨name, bytes⟩
      (g.address, m.addString g)
    | none =>
      let g : Global := ⟨s!".str.{m.nextString}", bytes⟩
      (g.address, { m.addString g with nextString := m.nextString + 1 })

/-- Adds a function. -/
def addFunction (m : ModuleDraft) (f : Function) : ModuleDraft :=
  { m with functions := m.functions.push f }

/-- The module as it stands. -/
def build (m : ModuleDraft) : Module :=
  { name := m.name
    sourceName := m.sourceName
    target := m.target
    globals := m.globals.toList
    declarations := m.declarations.toList
    functions := m.functions.toList }

end ModuleDraft

end Pseudocode.Ir
