import Pseudocode.Proofs.Grammar.Statements
import Pseudocode.Proofs.Lower.Headers
import Pseudocode.Proofs.Token.Lexemes

/-!
The names of subroutines are words.

A word is a letter or an underscore, and then letters, digits and underscores.  Names are words when
they are scanned (`isWord_of_mem_scan`), and a program says no name that does not stand among its
tokens.  So the subroutines of a program that has been read from a text have words for names
(`isWord_of_parse`).
-/

namespace Pseudocode

variable {cs : List Char} {x source : String} {sts : List Bare.Stmt}

/-! ### Tokens -/

/-- Is the text made of the characters of a word? -/
def IsWord (text : String) : Prop :=
  ∀ c ∈ text.toList, Scan.continuesWord c

theorem IsWord.dot_notMem {text : String} (h : IsWord text) : '.' ∉ text.toList :=
  fun hdot => absurd (h '.' hdot) (by decide)

namespace Scan

theorem isWord_of_lexeme (h : Lexeme cs (.name x)) : IsWord x := by
  cases h with
  | @name c cs hc hcs _ =>
    rw [IsWord, String.toList_ofList]
    refine List.forall_mem_cons.2 ⟨continuesWord_iff.2 (hc.imp_right fun halpha => ?_),
      fun d hd => continuesWord_iff.2 (hcs d hd)⟩
    rw [Char.isAlphanum, halpha, Bool.true_or]

theorem isWord_of_mem_segments {p : Position} {t : Token} (ht : .token t ∈ segments p cs)
    (hx : t.kind = .name x) : IsWord x :=
  isWord_of_lexeme (hx ▸ lexeme_of_mem_segments ht)

end Scan

/-- **Names that are scanned are words.** -/
theorem isWord_of_mem_scan {t : Token} (ht : t ∈ (scan source).tokens) (hx : t.kind = .name x) :
    IsWord x := by
  rcases List.mem_append.mp ht with htoken | hstop
  · obtain ⟨segment, hsegment, hsome⟩ := List.mem_filterMap.mp htoken
    cases segment with
    | token t' =>
      rw [Scan.Segment.token?, Option.some.injEq] at hsome
      rw [hsome] at hsegment
      exact Scan.isWord_of_mem_segments hsegment hx
    | gap c => simp [Scan.Segment.token?] at hsome
    | illegal i => simp [Scan.Segment.token?] at hsome
  · rw [List.mem_singleton.mp hstop] at hx
    simp at hx

/-! ### Trees -/

mutual

/-- The names of the subroutines that are declared in a bare statement, in the order in which they
end. -/
def Bare.Stmt.declares : Bare.Stmt → List String
  | .ifThen _ body rest => declaresAll body ++ rest.declares
  | .whileLoop _ body => declaresAll body
  | .forLoop _ _ _ body => declaresAll body
  | .subroutine name _ body _ => declaresAll body ++ [name]
  | _ => []

def declaresAll : List Bare.Stmt → List String
  | [] => []
  | st :: rest => st.declares ++ declaresAll rest

def Bare.ElsePart.declares : Bare.ElsePart → List String
  | .none => []
  | .body body => declaresAll body
  | .elseIf _ body rest => declaresAll body ++ rest.declares

end

mutual

theorem declares_bare (st : Stmt) : st.bare.declares = st.headers.map Header.name := by
  cases st with
  | ifThen condition body rest =>
    rw [Stmt.bare, Bare.Stmt.declares, Stmt.headers, List.map_append, declaresAll_bareAll,
      declares_bareRest]
  | whileLoop condition body =>
    rw [Stmt.bare, Bare.Stmt.declares, Stmt.headers, declaresAll_bareAll]
  | forLoop init bound body => rw [Stmt.bare, Bare.Stmt.declares, Stmt.headers, declaresAll_bareAll]
  | subroutine name params body ty =>
    rw [Stmt.bare, Bare.Stmt.declares, Stmt.headers, List.map_append, declaresAll_bareAll]
    rfl
  | _ => rfl

theorem declaresAll_bareAll (sts : List Stmt) :
    declaresAll (bareAll sts) = (headersAll sts).map Header.name := by
  cases sts with
  | nil => rfl
  | cons st rest =>
    rw [bareAll, declaresAll, headersAll, List.map_append, declares_bare, declaresAll_bareAll]

theorem declares_bareRest (part : ElsePart) :
    part.bare.declares = part.headers.map Header.name := by
  cases part with
  | none => rfl
  | body body => rw [ElsePart.bare, Bare.ElsePart.declares, ElsePart.headers, declaresAll_bareAll]
  | elseIf condition body rest =>
    rw [ElsePart.bare, Bare.ElsePart.declares, ElsePart.headers, List.map_append,
      declaresAll_bareAll, declares_bareRest]

end

namespace Phrase

mutual

/-- **What a statement declares stands in it.** -/
theorem Statement.mem_of_declares : ∀ {ts st}, Statement ts st → ∀ x ∈ st.declares, .name x ∈ ts
  | _, _, .ifThen h, x, hx => h.mem_of_declares x hx
  | _, _, .whileLoop n _ hbody, x, hx => by
      have hmem := hbody.mem_of_declares x hx
      simp [hmem]
  | _, _, .forLoop counter named n _ _ hbody, x, hx => by
      have hmem := hbody.mem_of_declares x hx
      simp [hmem]
  | _, _, .subroutine name n _ _ hbody, x, hx => by
      rcases List.mem_append.mp hx with hx | hx
      · have hmem := hbody.mem_of_declares x hx
        simp [hmem]
      · simp [List.mem_singleton.mp hx]

theorem Conditional.mem_of_declares :
    ∀ {ts condition body rest}, Conditional ts condition body rest →
    ∀ x ∈ declaresAll body ++ rest.declares, .name x ∈ ts
  | _, _, _, _, .arm n _ hbody hrest, x, hx => by
      rcases List.mem_append.mp hx with hx | hx
      · have hmem := hbody.mem_of_declares x hx
        simp [hmem]
      · have hmem := hrest.mem_of_declares x hx
        simp [hmem]

theorem Rest.mem_of_declares : ∀ {ts rest}, Rest ts rest → ∀ x ∈ rest.declares, .name x ∈ ts
  | _, _, .body n hbody, x, hx => by
      have hmem := hbody.mem_of_declares x hx
      simp [hmem]
  | _, _, .elseIf h, x, hx => List.mem_cons_of_mem _ (h.mem_of_declares x hx)

theorem Block.mem_of_declares : ∀ {ts sts}, Block ts sts → ∀ x ∈ declaresAll sts, .name x ∈ ts
  | _, _, .cons n hst hrest, x, hx => by
      rcases List.mem_append.mp hx with hx | hx
      · have hmem := hst.mem_of_declares x hx
        simp [hmem]
      · have hmem := hrest.mem_of_declares x hx
        simp [hmem]

end

theorem Lines.mem_of_declares {ts : List Kind} (h : Lines ts sts) :
    ∀ x ∈ declaresAll sts, .name x ∈ ts := by
  induction h with
  | one hst =>
    intro x hx
    exact hst.mem_of_declares x (by simpa [declaresAll] using hx)
  | more n hst _ ih =>
    intro x hx
    rcases List.mem_append.mp hx with hx | hx
    · have hmem := hst.mem_of_declares x hx
      simp [hmem]
    · have hmem := ih x hx
      simp [hmem]

theorem Program.mem_of_declares {ts : List Kind} (h : Program ts sts) :
    ∀ x ∈ declaresAll sts, .name x ∈ ts := by
  intro x hx
  cases h with
  | empty m n => simp [declaresAll] at hx
  | lines m n hlines =>
    have hmem := hlines.mem_of_declares x hx
    simp [hmem]

end Phrase

/-! ### Programs -/

/-- **The subroutines of a program have words for names**, if it has been read from a text. -/
theorem isWord_of_parse {p : Program} (h : parse (scan source).tokens = .ok p) :
    ∀ header ∈ headersAll p, IsWord header.name := by
  intro header hheader
  have hderived := program_of_parse h
  have hdeclared : header.name ∈ declaresAll (bareAll p) := by
    rw [declaresAll_bareAll]
    exact List.mem_map_of_mem hheader
  have hname := hderived.mem_of_declares _ hdeclared
  obtain ⟨t, ht, hkind⟩ := List.mem_map.mp hname
  have hstart : t ∈ (scan source).tokens.takeWhile fun t => t.kind != .eof := ht
  exact isWord_of_mem_scan (List.takeWhile_subset _ hstart) hkind

end Pseudocode
