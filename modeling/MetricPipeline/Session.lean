import MetricPipeline.Machine
import MetricPipeline.Script

/-!
# Sessions

A session performs a script. After each action every call runs until it has ended or waits for a gate.

As long as at most one task can step at any time, a reply lists what happened in the order in which it
happened. From the step on in which siblings first run side by side, their order is left open, and replies
are given in a fixed order instead.
-/

namespace MetricPipeline

structure Session where
  machine : Machine := {}
  /-- The names of the nodes, in the order in which the nodes were made. -/
  names : List String := []
  behaviours : List (Work × Behaviour) := []
  /-- The calls under way whose leaf is torn down in a way of their own. -/
  replaced : List ((CallId × Work) × Behaviour) := []
  /-- The named calls that wait, oldest first. -/
  pending : List (String × CallId) := []
  unordered : Bool := false

namespace Session

def environment (s : Session) : Environment := fun id =>
  { behaviour := fun _ work =>
      match s.replaced.lookup (id, work) with
      | some b => b
      | none => (s.behaviours.lookup work).getD {}
    panicText := fun _ => Payload.taskText }

def world (s : Session) : World := s.machine.world

def node? (s : Session) (name : String) : Except Misuse NodeId :=
  match s.names.idxOf? name with
  | some x => .ok x
  | none => .error (.unknownNode name)

def component? (s : Session) (name : String) : Except Misuse (NodeId × Component) := do
  let x ← s.node? name
  match s.world.component? x with
  | some c => .ok (x, c)
  | none => .error (.unknownNode name)

def move (s : Session) (m : Move) : Session :=
  { s with machine := s.machine.move s.environment m }

def settle (s : Session) : Session := { s with machine := s.machine.settle s.environment }

/-- Lets a call return, if it has ended. -/
def finish? (s : Session) (id : CallId) : Option (Session × Outcome) :=
  (s.machine.outcome? id).map fun outcome =>
    ({ s.move (.finish id) with replaced := s.replaced.filter fun r => r.1.1 != id }, outcome)

/-- Lets the named calls return that have ended. -/
def sweep (s : Session) : Session × List (String × Outcome) :=
  s.pending.foldl
    (fun (s, returned) (task, id) =>
      match s.finish? id with
      | some (s, outcome) =>
        ({ s with pending := s.pending.filter (·.1 != task) }, returned ++ [(task, outcome)])
      | none => (s, returned))
    (s, [])

def drop (s : Session) (id : CallId) : Session :=
  { s.move (.cancel id) with replaced := s.replaced.filter fun r => r.1.1 != id }

/-- Starts a call and runs it as far as it goes. -/
def call (s : Session) (request : Request) (task : Option String)
    (teardown : Option (Work × Behaviour)) : Session × Answer :=
  let id := s.machine.next
  let replaced := match teardown with
    | some (work, b) => ((id, work), b) :: s.replaced
    | none => s.replaced
  let s := ({ s with replaced }.move (.call request)).settle
  match s.finish? id, task with
  | some (s, outcome), _ => (s, .returned outcome)
  | none, some task =>
    let pending := s.pending ++ [(task, id)]
    ({ s with pending, unordered := s.unordered || decide (2 ≤ pending.length) }, .pending)
  | none, none => (s.drop id, .cancelled)

/-- What a node consists of, and what its user code does. -/
def plan? (s : Session) (x : NodeId) :
    Blueprint → Except Misuse (Component × List (Work × Behaviour))
  | .leaf onRelease onReport => .ok (.leaf, [(⟨x, .teardown⟩, onRelease), (⟨x, .report⟩, onReport)])
  | .uncounted onRelease onReport =>
    .ok (.uncounted, [(⟨x, .teardown⟩, onRelease), (⟨x, .report⟩, onReport)])
  | .sink text onReport => .ok (.sink text, [(⟨x, .report⟩, onReport)])
  | .hooked below hook => do return (.hooked (← s.node? below), [(⟨x, .hook⟩, hook)])
  | .router routes config => do
    let routes ← routes.mapM fun (key, name) => do return (key, ← s.node? name)
    return (.router (.ofList routes) config, [])

def acquire (s : Session) (x : NodeId) : Session := (s.call (.acquire x) none none).1

def make (s : Session) (name : String) (blueprint : Blueprint) (acquisitions : Nat) :
    Except Misuse Session := do
  if s.names.contains name then throw (.repeatedNode name)
  let x := s.names.length
  let (component, behaviours) ← s.plan? x blueprint
  let s := { s.move (.build component) with
    names := s.names ++ [name], behaviours := behaviours ++ s.behaviours }
  return acquisitions.repeat (·.acquire x) s

def nodeState? (s : Session) (x : NodeId) : Option NodeState :=
  match s.world.component? x with
  | some .leaf | some .uncounted => some (.leaf (s.world.usage x) (s.world.census x))
  | some (.sink _) => some (.sink (s.world.usage x).tornDown (s.world.census x).reports)
  | _ => none

/-- All nodes that receive reports. -/
def state (s : Session) : List (String × NodeState) :=
  s.names.zipIdx.filterMap fun (name, x) => (s.nodeState? x).map (name, ·)

def ask (s : Session) : Query → Except Misuse Answer
  | .state => .ok (.state s.state)
  | .routes name => do
    match ← s.component? name with
    | (_, .router routes _) => .ok (.names routes.keys)
    | _ => .error (.unsuitableNode name)
  | .size name => do
    match ← s.component? name with
    | (_, .router routes _) => .ok (.count routes.size)
    | _ => .error (.unsuitableNode name)
  | .isEmpty name => do
    match ← s.component? name with
    | (_, .router routes _) => .ok (.flag routes.isEmpty)
    | _ => .error (.unsuitableNode name)
  | .name name => do
    match ← s.component? name with
    | (_, .sink text) => .ok (.text text)
    | _ => .error (.unsuitableNode name)
  | .isReleased name => do
    match ← s.component? name with
    | (x, .sink _) => .ok (.flag (s.world.usage x).tornDown)
    | _ => .error (.unsuitableNode name)
  | .usage name => do
    match ← s.component? name with
    | (x, .leaf) | (x, .uncounted) => .ok (.usage (s.world.usage x))
    | _ => .error (.unsuitableNode name)
  | .received name => do
    match ← s.component? name with
    | (x, .leaf) | (x, .uncounted) | (x, .sink _) => .ok (.reports (s.world.received x))
    | _ => .error (.unsuitableNode name)

def act (s : Session) : Action → Except Misuse (Session × Answer)
  | .make name blueprint acquisitions => do
    return (← s.make name blueprint acquisitions, .nothing)
  | .acquire name => do return (s.acquire (← s.node? name), .nothing)
  | .release name teardown task => do
    let (x, component) ← s.component? name
    let replaced := match component with
      | .leaf | .uncounted => teardown.map fun b => ((⟨x, .teardown⟩ : Work), b)
      | _ => none
    return s.call (.release x) task replaced
  | .report name r task => do return s.call (.report (← s.node? name) r) task none
  | .releaseAll names config task => do
    let xs ← names.mapM s.node?
    let s := { s with unordered := s.unordered || decide (2 ≤ xs.length) }
    return s.call (.releaseAll xs config) task none
  | .openGate gate => .ok ((s.move (.openGate gate)).settle, .nothing)
  | .cancel task =>
    match s.pending.lookup task with
    | some id =>
      .ok ({ s.drop id with pending := s.pending.filter (·.1 != task) }, .cancelled)
    | none => .error (.unknownTask task)
  | .ask query => do return (s, ← s.ask query)

def workText (s : Session) (work : Work) : String :=
  let duty := match work.duty with
    | .teardown => "teardown"
    | .hook => "hook"
    | .report => "report"
  s.names.getD work.node "" ++ " " ++ duty

/-- The event that user code announces when it begins, and when it goes on after its gate. -/
def event? (s : Session) : Entry → Option String
  | .began work => some (s.workText work)
  | .resumed work => some (s.workText work ++ " resumed")
  | _ => none

/-- Several routes are released side by side. -/
def branches : Entry → Bool
  | .scattered _ routes => decide (2 ≤ routes)
  | _ => false

/-- Performs an action so often, and gathers the named calls that return meanwhile. -/
def performTimes (action : Action) :
    Nat → Session → Answer → List (String × Outcome) →
      Except Misuse (Session × Answer × List (String × Outcome))
  | 0, s, answer, returned => .ok (s, answer, returned)
  | times + 1, s, _, returned => do
    let (s, answer) ← s.act action
    let (s, more) := s.sweep
    performTimes action times s answer (returned ++ more)

def perform (s : Session) (step : Step) : Except Misuse (Session × Reply) := do
  let before := s.world.journal.length
  let (s, answer, returned) ← performTimes step.action step.times s .nothing []
  let entries := (s.world.journal.take (s.world.journal.length - before)).reverse
  let s := { s with unordered := s.unordered || entries.any branches }
  let reply : Reply :=
    { answer, returned
      events := entries.filterMap s.event?
      lines := entries.filterMap fun e => e.line?.map LogLine.text }
  return (s, if s.unordered then reply.canonical else reply)

/-- The reply to each step, and the session they lead to. -/
def performAll (s : Session) (steps : List Step) : Except Misuse (Session × List Reply) :=
  steps.foldlM
    (fun (s, replies) step => do
      let (s, reply) ← s.perform step
      return (s, replies ++ [reply]))
    (s, [])

end Session
end MetricPipeline
