import Std.Data.TreeMap

/-!
Scopes.

The body of a subroutine has names of its own, apart from those of the top level and of every other
subroutine.  Scopes do not nest.  A `Symbol` is a name together with the scope it belongs to.

Symbols are put in order by their names, and those of one name by their scopes, so that they can be
the keys of a `TreeMap`.  The instances say that this is an order, and that only equal symbols stand
at the same place in it.
-/

namespace Pseudocode

/-- Where a name belongs. -/
inductive Scope where
  | top
  | subroutine (name : String)
  deriving DecidableEq, Repr, Inhabited

namespace Scope

/-- How messages name a scope. -/
def label : Scope → String
  | top => "<top level>"
  | subroutine name => name

/-- The subroutine that a scope belongs to, if it is not the top level. -/
def subroutine? : Scope → Option String
  | top => none
  | subroutine name => some name

theorem subroutine?_inj {s t : Scope} : s.subroutine? = t.subroutine? ↔ s = t := by
  cases s <;> cases t <;> simp [subroutine?]

end Scope

/-- A name in its scope. -/
structure Symbol where
  name : String
  scope : Scope
  deriving DecidableEq, Repr, Inhabited

namespace Symbol

/-- The order of symbols: by name, and then by scope. -/
def order : Symbol → Symbol → Ordering :=
  compareLex (compareOn name) (compareOn fun s => s.scope.subroutine?)

instance : Ord Symbol where
  compare := order

instance : Std.TransOrd Symbol :=
  inferInstanceAs
    (Std.TransCmp (compareLex (compareOn name) (compareOn fun s => s.scope.subroutine?)))

instance : Std.LawfulEqOrd Symbol where
  eq_of_compare {s t} h := by
    have hst : compare s.name t.name = .eq ∧
      compare s.scope.subroutine? t.scope.subroutine? = .eq :=
      Ordering.then_eq_eq.1 h
    rw [Std.LawfulEqOrd.compare_eq_iff_eq, Std.LawfulEqOrd.compare_eq_iff_eq,
      Scope.subroutine?_inj] at hst
    obtain ⟨hname, hscope⟩ := hst
    cases s
    cases t
    cases hname
    cases hscope
    rfl

end Symbol

end Pseudocode
