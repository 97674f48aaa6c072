import MetricPipeline.Activity

/-!
# Calls side by side

A machine runs any number of calls over one graph. A move adds a node, starts a call, takes one step of one
task, opens a gate, drops a call or lets a finished call return, so a sequence of moves is one interleaving.
`settle` picks moves by itself: it goes on, always with the first task that can step, until every call has
ended or waits.
-/

namespace MetricPipeline

inductive Request where
  | acquire (node : NodeId)
  | release (node : NodeId)
  | report (node : NodeId) (report : Report)
  | releaseAll (nodes : List NodeId) (config : Config)
  deriving DecidableEq, Repr

namespace Request

def nodes : Request → List NodeId
  | acquire x | release x | report x _ => [x]
  | releaseAll xs _ => xs

def activity : Request → Activity
  | acquire x => .acquire .outside x
  | release x => .release .outside x
  | report x r => .report x r
  | releaseAll xs config => .spread config (xs.map fun x => (.outside, x))

end Request

/-- The calls under way, oldest first, and the number of the next one. -/
structure Machine where
  world : World := {}
  calls : List (CallId × Activity) := []
  next : CallId := 0

inductive Move where
  | build (component : Component)
  | call (request : Request)
  | run (call : CallId) (path : Path)
  | openGate (gate : Gate)
  | finish (call : CallId)
  | cancel (call : CallId)
  deriving DecidableEq, Repr

namespace Machine

def activity? (m : Machine) (id : CallId) : Option Activity := m.calls.lookup id

/-- How a call ended that has not yet returned. -/
def outcome? (m : Machine) (id : CallId) : Option Outcome := (m.activity? id).bind Activity.outcome?

def without (m : Machine) (id : CallId) : List (CallId × Activity) :=
  m.calls.filter fun c => c.1 != id

def step? (env : Environment) (m : Machine) : Move → Option Machine
  | .build component => (m.world.build? component).map fun w => { m with world := w }
  | .call request =>
    if request.nodes.all fun x => decide (x < m.world.nodes.length) then
      some { m with calls := m.calls ++ [(m.next, request.activity)], next := m.next + 1 }
    else none
  | .run id path => do
    let a ← m.activity? id
    let (w, a) ← a.step? (env id) m.world path
    return { m with
      world := w
      calls := m.calls.map fun c => if c.1 = id then (id, a) else c }
  | .openGate gate => some { m with world := m.world.openGate gate }
  | .finish id => do
    let outcome ← m.outcome? id
    return { m with world := m.world.note (.returned id outcome), calls := m.without id }
  | .cancel id => do
    let a ← m.activity? id
    if a.isInterruptible then
      return { m with world := m.world.note (.cancelled id), calls := m.without id }
    else none

/-- The first task that can step, of the oldest call that has one. -/
def ready? (m : Machine) : Option (CallId × Path) :=
  m.calls.findSome? fun c => (c.2.ready? m.world).map fun path => (c.1, path)

/-- A bound on the steps that are left. -/
def weight (m : Machine) : Nat :=
  m.calls.foldl (fun n c => n + c.2.weight) m.world.potential

def settleWithin (env : Environment) : Nat → Machine → Machine
  | 0, m => m
  | fuel + 1, m =>
    match m.ready? with
    | none => m
    | some (id, path) =>
      match m.step? env (.run id path) with
      | some m => settleWithin env fuel m
      | none => m

/-- Runs until every call has ended or waits for a gate. -/
def settle (env : Environment) (m : Machine) : Machine := m.settleWithin env m.weight

/-- Makes a move if it is possible. -/
def move (env : Environment) (m : Machine) (a : Move) : Machine := (m.step? env a).getD m

def callAll (env : Environment) (m : Machine) (requests : List Request) : Machine :=
  requests.foldl (fun m r => m.move env (.call r)) m

def finishAll (env : Environment) (m : Machine) : Machine :=
  m.calls.foldl (fun m c => m.move env (.finish c.1)) m

/-- Starts calls side by side and runs them as far as they go. -/
def race (env : Environment) (m : Machine) (requests : List Request) : Machine :=
  (m.callAll env requests).settle env

/-- Performs calls one after another. -/
def performEach (env : Environment) (m : Machine) (requests : List Request) : Machine :=
  requests.foldl (fun m r => (m.race env [r]).finishAll env) m

/-- How the calls ended that have not yet returned. -/
def outcomes (m : Machine) : List Outcome := m.calls.filterMap (·.2.outcome?)

end Machine
end MetricPipeline
