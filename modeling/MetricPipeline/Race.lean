import MetricPipeline.Machine
import MetricPipeline.Census

/-!
# Races

Many calls at once over a small graph whose teardowns and hooks fail. What is counted does not depend on the
interleaving, so one is enough.
-/

namespace MetricPipeline

namespace Race

/-- A text for each way in which a call can end. -/
def outcomeLabel : Outcome → String
  | .ok => "ok"
  | .failed failure => failure.label
  | .panicked _ => "panic"

def tally (outcomes : List Outcome) : Table Nat :=
  outcomes.foldl
    (fun t o => t.insert (outcomeLabel o) ((t.get? (outcomeLabel o)).getD 0 + 1)) .empty

/-- Every teardown and every hook fails; a teardown may have to wait first. -/
def environment (gate : Option Gate) : Environment := .uniform fun work =>
  match work.duty with
  | .teardown => { gate, failure := some (.failed "teardown") }
  | .hook => { failure := some (.failed "hook") }
  | .report => {}

def build (components : List Component) : Machine :=
  components.foldl (fun m c => m.move (environment none) (.build c)) {}

/-- What is released: a leaf, or a router or wrapper over it. -/
inductive Top where
  | leaf
  | router
  | hooked
  deriving DecidableEq, Repr

def metric : String := "m"

/-- The leaf is the first node, and the top the last. -/
def Top.components : Top → List Component
  | .leaf => [.leaf]
  | .router => [.leaf, .router (.ofList [(metric, 0)]) {}]
  | .hooked => [.leaf, .hooked 0]

def Top.node (top : Top) : NodeId := top.components.length - 1

def workCount (m : Machine) (duty : Duty) : Nat :=
  m.world.journal.countP fun
    | .began work => decide (work.duty = duty)
    | _ => false

structure ReleaseCount where
  results : Table Nat
  usage : Usage
  teardowns : Nat
  hooks : Nat
  deriving DecidableEq, Repr

/-- Acquires the top some number of times, and then releases it some number of times at once. -/
def releases (top : Top) (acquired released : Nat) : ReleaseCount :=
  let env := environment none
  let m := (build top.components).performEach env (.replicate acquired (.acquire top.node))
  let m := m.race env (.replicate released (.release top.node))
  ⟨tally m.outcomes, m.world.usage 0, workCount m .teardown, workCount m .hook⟩

structure DeliveryCount where
  results : Table Nat
  reports : Nat
  teardowns : Nat
  deriving DecidableEq, Repr

/-- Holders of one router each send so many reports, waiting for each to be taken, and then release it. -/
def deliveries (holders reports : Nat) : DeliveryCount :=
  let env := environment none
  let top := Top.router.node
  let m := (build Top.router.components).performEach env (.replicate holders (.acquire top))
  let report := Report.new .epoch metric (.int 1)
  let m := reports.repeat
    (fun m => (m.race env (.replicate holders (.report top report))).finishAll env) m
  let m := m.race env (.replicate holders (.release top))
  ⟨tally m.outcomes, (m.world.census 0).reports, workCount m .teardown⟩

structure FanOutCount where
  ok : Bool
  errors : Nat
  withinLimit : Bool
  eachOnce : Bool
  deriving DecidableEq, Repr

/-- The largest number of pieces of user code under way at once, in a journal with its oldest entry first. -/
def peak (journal : List Entry) : Nat :=
  (journal.foldl
    (fun (under, most) e => match e with
      | .began _ => (under + 1, max most (under + 1))
      | .finished _ _ => (under - 1, most)
      | _ => (under, most))
    (0, 0)).2

/-- Releases so many leaves at once, each acquired once. The teardowns wait until no other can begin, or, with
a barrier, until all have begun. -/
def fanOut (n limit : Nat) (barrier : Bool) : FanOutCount :=
  let gate : Gate := "begun"
  let env := environment (some gate)
  let leaves := List.range n
  let m := (build (.replicate n .leaf)).performEach env (leaves.map .acquire)
  let m := m.race env [.releaseAll leaves ⟨limit⟩]
  let m := if barrier && decide (workCount m .teardown < n) then m
    else (m.move env (.openGate gate)).settle env
  let failures := m.outcomes.filterMap (Outcome.releaseFailure? Payload.taskText)
  { ok := m.outcomes.all (· == .ok)
    errors := failures.foldl (fun n f => n + f.faults.length) 0
    withinLimit := limit == 0 || decide (peak m.world.journal.reverse ≤ limit)
    eachOnce := leaves.all fun x =>
      let c := m.world.census x
      c.releases == 1 && c.teardowns == 1 }

end Race
end MetricPipeline
