/-!
# Usage counts

The count of outstanding references to a node, and the guard that lets its teardown run once. A release is
two atomic operations: the checked decrement, and, only when the decrement met a count of one, the attempt to
set the guard. Between them other calls may act.
-/

namespace MetricPipeline

/-- The count is a natural number: no caller can hold as many references as would overflow a machine word. -/
structure Usage where
  refs : Nat := 0
  tornDown : Bool := false
  deriving DecidableEq, Repr, Inhabited

namespace Usage

def acquire (u : Usage) : Usage := { u with refs := u.refs + 1 }

/-- Nothing is left to drop at zero. -/
def drop? (u : Usage) : Option Usage :=
  match u.refs with
  | 0 => none
  | left + 1 => some { u with refs := left }

/-- Sets the guard, unless it was set before. -/
def fire? (u : Usage) : Option Usage :=
  if u.tornDown then none else some { u with tornDown := true }

theorem drop?_eq_none_iff (u : Usage) : u.drop? = none ↔ u.refs = 0 := by
  cases u with
  | mk refs tornDown => cases refs <;> simp [drop?]

theorem fire?_eq_some_iff (u v : Usage) :
    u.fire? = some v ↔ u.tornDown = false ∧ v = { u with tornDown := true } := by
  cases h : u.tornDown <;> simp [fire?, h, eq_comm]

end Usage
end MetricPipeline
