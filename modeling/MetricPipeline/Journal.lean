import MetricPipeline.Graph
import MetricPipeline.Outcome
import MetricPipeline.Report

/-!
# Journal

Everything that happens is written down in the order in which it happens. What is logged, what a leaf has
received and how often a node was used are all read off the journal.
-/

namespace MetricPipeline

inductive Duty where
  | teardown
  | hook
  | report
  deriving DecidableEq, Repr

/-- A run of code that the graph's user supplied. -/
structure Work where
  node : NodeId
  duty : Duty
  deriving DecidableEq, Repr

abbrev CallId := Nat

inductive Entry where
  | acquired (holder : Holder) (node : NodeId)
  /-- The guard was found set when a reference had been added. -/
  | acquiredLate (node : NodeId) (refs : Nat)
  | released (holder : Holder) (node : NodeId)
  /-- There was no reference to drop. -/
  | underflowed (node : NodeId)
  | dropped (node : NodeId) (left : Nat)
  /-- The guard was set, and with it the teardown begun. -/
  | tornDown (node : NodeId)
  /-- The last reference was dropped, and the guard found set. -/
  | releasedLate (node : NodeId)
  | closed (node : NodeId) (name : String)
  | scattered (node : NodeId) (routes : Nat)
  | handed (node : NodeId) (report : Report)
  | unrouted (node : NodeId) (name : String)
  | began (work : Work)
  | resumed (work : Work)
  | finished (work : Work) (outcome : Outcome)
  | hookPanicked (node : NodeId) (payload : Payload)
  /-- A fan-out has joined a release that had panicked. -/
  | releasePanicked (text : String)
  | returned (call : CallId) (outcome : Outcome)
  | cancelled (call : CallId)
  deriving DecidableEq, Repr

inductive Level where
  | debug
  | warn
  | error
  deriving DecidableEq, Repr

def Level.name : Level → String
  | .debug => "DEBUG"
  | .warn => "WARN"
  | .error => "ERROR"

structure LogLine where
  level : Level
  message : String
  fields : List (String × String) := []
  deriving DecidableEq, Repr

/-- The fields follow the message as they are, without quotes. -/
def LogLine.text (line : LogLine) : String :=
  line.fields.foldl (fun acc f => acc ++ " " ++ f.1 ++ "=" ++ f.2)
    (line.level.name ++ " " ++ line.message)

/-- The line that is logged when an entry is made, if one is. -/
def Entry.line? : Entry → Option LogLine
  | .acquiredLate _ refs => some ⟨.warn, "component acquired after teardown", [("refs", toString refs)]⟩
  | .underflowed _ => some ⟨.warn, "component released more times than it was acquired", []⟩
  | .tornDown _ => some ⟨.debug, "last reference released; running teardown", []⟩
  | .releasedLate _ => some ⟨.warn, "last reference released again after teardown; ignoring", []⟩
  | .closed _ name => some ⟨.debug, "input released", [("input", name)]⟩
  | .scattered _ routes =>
    some ⟨.debug, "selector: releasing routed inputs", [("routes", toString routes)]⟩
  | .unrouted _ name => some ⟨.warn, "selector: no route for metric", [("metric", name)]⟩
  | .began ⟨_, .hook⟩ => some ⟨.debug, "callback input: running shutdown hook", []⟩
  | .hookPanicked _ p => some ⟨.warn, "shutdown hook panicked", [("panic", p.hookText)]⟩
  | .releasePanicked text => some ⟨.error, "component release task failed", [("error", text)]⟩
  | _ => none

end MetricPipeline
