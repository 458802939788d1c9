import Pseudocode.Proofs.Memory.Copies
import Pseudocode.Proofs.Slots.Settled

/-!
Where copies read.

As many bytes are copied from a string as the length says that it was read with.  If they fit, and
if the loads of the program find what has been stored last, then every copy reads inside of a block
that has not been given up, or inside of a constant string (`readsInside_of_settled`).

Without this, a copy may read what has been given up.  A string variable that is assigned to itself
is loaded first, and then its buffer is resized (`not_readsInside_assignedToItself`).  And it may
read too far, if the assignment that a path has come through last has left a shorter string than the
last one in the text (`not_readsInside_shorterOnAPath`).
-/

namespace Pseudocode

open Lower Ir

/-- **Copies read inside of the blocks that they are meant for**, on every path through every
function of a settled program whose copies fit. -/
theorem readsInside_of_settled {tokens : List Token} {p : Program} (hparse : parse tokens = .ok p)
    {name sourceName target : String} {m : Module}
    (h : (generate name sourceName target p).1 = .ok m)
    (hfits : p.copiesFit) (hsettled : p.settled) : ∀ f ∈ m.functions, f.ReadsInside m.globals := by
  intro f hf
  obtain ⟨hmain, hroutines⟩ := Program.settled_iff.mp hsettled
  have hlast : f.ReadsLastWrite :=
    good_of_generate h (allAgree_of_parse hparse) (lastWrite_routine hmain)
      (fun r hr => lastWrite_routine (hroutines r hr)) f hf
  have hcopies : f.Passes (copies True m.globals) {} :=
    copies_of_parse hparse h (fun _ => hfits) f hf
  have hgoes : f.Passes { step := Memory.step, ok := (copies True m.globals).goes } {} :=
    Function.Passes.comap Memory.stored hlast (fun _ _ => rfl) (fun _ _ _ => trivial)
      fun _ _ hok _ => hok
  exact (Function.Passes.follow hgoes hcopies).comap id (fun _ _ => rfl) (fun _ _ _ => trivial)
    fun _ _ hok => hok.2 trivial

/-- A string that is built up in a loop from itself and from another one. -/
def lengthening : String :=
  "s = \"ab\"\nt = s + \"c\"\nc = 0\nWHILE c < 3 DO\nu = t + s\nt = \"xyz\"\n" ++
    "c = c + 1\nENDWHILE\nOUTPUT u\n"

theorem lengthening_readsInside : ∃ p m, parse (scan lengthening).tokens = .ok p ∧ p.copiesFit ∧
    p.settled ∧ (generate "lengthening" "lengthening.pc" "none" p).1 = .ok m ∧
    m.functions.map (fun f => f.instrs.countP Instr.isCopy) = [8] ∧
    ∀ f ∈ m.functions, f.ReadsInside m.globals := by
  have hok : ((parse (scan lengthening).tokens).toOption.bind fun p =>
      (generate "lengthening" "lengthening.pc" "none" p).1.toOption.map fun m =>
        (p.copiesFit, p.settled, m.functions.map fun f => f.instrs.countP Instr.isCopy)) =
          some (true, true, [8]) := by
    decide +kernel
  obtain ⟨p, hp, hok⟩ := Option.bind_eq_some_iff.mp hok
  obtain ⟨m, hm, hok⟩ := Option.map_eq_some_iff.mp hok
  simp only [Prod.mk.injEq] at hok
  obtain ⟨hfits, hsettled, hcopies⟩ := hok
  have hparse := eq_ok_of_toOption hp
  have h := eq_ok_of_toOption hm
  exact ⟨p, m, hparse, hfits, hsettled, h, hcopies, readsInside_of_settled hparse h hfits hsettled⟩

/-! ### Copies that do not fit -/

/-- Watching where copies read. -/
def copySources (globals : List Global) : Watch Memory where
  step := Memory.step
  ok := Instr.CopiesFrom globals

/-- Does the next instruction copy from a block that has been given up, or beyond the end of a
block? -/
def Ir.Spot.copiesOutside (c : Spot Memory) : Bool :=
  match c.code with
  | .call _ "memcpy" _ [_, source, size] :: _ =>
    match c.data.eval source, c.data.eval size with
    | .block b offset, .number n =>
      b ∈ c.data.freed || c.data.sizes[b]?.join.any fun size => size < offset + n
    | _, _ => false
  | _ => false

theorem not_readsInside_of_copiesOutside {f : Function} {globals : List Global}
    {labels : List String} {k : Nat}
    {c : Spot Memory} (hspot : f.spot? (copySources globals) {} labels k = some c)
    (h : c.copiesOutside) : ¬ f.ReadsInside globals := by
  intro hreads
  have hok : c.Ok (copySources globals) :=
    hreads c (Function.arrives_of_spot? (fun _ _ => trivial) hspot)
  unfold Ir.Spot.copiesOutside at h
  split at h
  · next dest? signature dest source size rest hcode =>
      split at h
      · next b offset n hsource hsize =>
          rcases hok _ rest hcode _ _ _ _ _ rfl with
            ⟨b', offset', n', size', hptr, hcount, hfound, -, -, hle, hlive⟩ |
            ⟨g, -, -, hptr, -⟩ | ⟨_, _, hptr, -⟩
          · rw [hsource, Content.block.injEq] at hptr
            rw [hsize, Content.number.injEq] at hcount
            obtain ⟨rfl, rfl⟩ := hptr
            subst hcount
            simp [hlive, hfound] at h
            omega
          · rw [hsource] at hptr
            simp at hptr
          · rw [hsource] at hptr
            simp at hptr
      · simp at h
  · simp at h

/-- A program has a copy that does not fit if one is found along labels in its first function. -/
theorem exists_not_readsInside {source name sourceName : String} (labels : List String) (k : Nat)
    (h : ((parse (scan source).tokens).toOption.bind fun p =>
      (generate name sourceName "none" p).1.toOption.bind fun m => m.functions.head?.bind fun f =>
        (f.spot? (copySources m.globals) {} labels k).map Spot.copiesOutside) = some true) :
    ∃ p m, parse (scan source).tokens = .ok p ∧ (generate name sourceName "none" p).1 = .ok m ∧
      ∃ f ∈ m.functions, ¬ f.ReadsInside m.globals := by
  obtain ⟨p, hp, h⟩ := Option.bind_eq_some_iff.mp h
  obtain ⟨m, hm, h⟩ := Option.bind_eq_some_iff.mp h
  obtain ⟨f, hf, h⟩ := Option.bind_eq_some_iff.mp h
  obtain ⟨c, hspot, hc⟩ := Option.map_eq_some_iff.mp h
  exact ⟨p, m, eq_ok_of_toOption hp, eq_ok_of_toOption hm, f, List.mem_of_mem_head? hf,
    not_readsInside_of_copiesOutside hspot hc⟩

/-- A string variable that is assigned to itself where the size of its buffer is not known. -/
def assignedToItself : String :=
  "s = \"ab\"\nc = 0\nWHILE c > 0 DO\ns = s\nENDWHILE\n"

/-- **A copy may read from a block that has been given up.**  The address of the string is loaded
before its buffer is resized. -/
theorem not_readsInside_assignedToItself : ∃ p m, parse (scan assignedToItself).tokens = .ok p ∧
    (generate "itself" "itself.pc" "none" p).1 = .ok m ∧
    ∃ f ∈ m.functions, ¬ f.ReadsInside m.globals :=
  exists_not_readsInside ["while.body"] 6 (by decide +kernel)

/-- A string variable that is longer where an arm has been taken, and is copied behind the arm. -/
def shorterOnAPath : String :=
  "s = \"a\"\nc = 0\nIF c > 0 THEN\ns = \"abc\"\nENDIF\nt = s\n"

/-- **A copy may read beyond the end of a block.**  Its length is that of the last assignment in the
text, and a path that goes around that assignment finds a shorter string. -/
theorem not_readsInside_shorterOnAPath : ∃ p m, parse (scan shorterOnAPath).tokens = .ok p ∧
    (generate "shorter" "shorter.pc" "none" p).1 = .ok m ∧
    ∃ f ∈ m.functions, ¬ f.ReadsInside m.globals :=
  exists_not_readsInside ["if.end"] 5 (by decide +kernel)

end Pseudocode
