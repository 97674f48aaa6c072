import MetricPipeline.Outcome

namespace MetricPipeline

/-- A named barrier: closed at first, and open for good once opened. -/
abbrev Gate := String

/-- What a leaf's teardown, a shutdown hook or the receiver of a report does when it is run. -/
structure Behaviour where
  /-- Waited for before anything else happens. -/
  gate : Option Gate := none
  panic : Option Payload := none
  /-- An eager panic is raised at once, before there is anything to wait for. -/
  eager : Bool := false
  failure : Option Failure := none
  deriving DecidableEq, Repr, Inhabited

namespace Behaviour

def wait (b : Behaviour) : Option Gate :=
  if b.eager && b.panic.isSome then none else b.gate

/-- A panic comes before the failure that would have been returned. -/
def outcome (b : Behaviour) : Outcome :=
  match b.panic, b.failure with
  | some p, _ => .panicked p
  | none, some failure => .failed failure
  | none, none => .ok

end Behaviour
end MetricPipeline
