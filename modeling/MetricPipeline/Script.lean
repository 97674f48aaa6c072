import MetricPipeline.Behaviour
import MetricPipeline.Graph
import MetricPipeline.Report
import MetricPipeline.Usage
import MetricPipeline.Census

/-!
# Scripts

A script makes nodes under names, acquires, releases and reports to them, opens gates, drops calls that wait
and looks at the state, one step after another.
-/

namespace MetricPipeline

/-- A node to be made, with the behaviour of its user code; other nodes are given by name. -/
inductive Blueprint where
  | leaf (onRelease onReport : Behaviour)
  | uncounted (onRelease onReport : Behaviour)
  | sink (name : String) (onReport : Behaviour)
  | hooked (delegate : String) (hook : Behaviour)
  | router (routes : List (String × String)) (config : Config)
  deriving DecidableEq, Repr

inductive Query where
  | routes (node : String)
  | size (node : String)
  | isEmpty (node : String)
  | name (node : String)
  | isReleased (node : String)
  | usage (node : String)
  | received (node : String)
  | state
  deriving DecidableEq, Repr

/-- A call that is given a name may go on waiting after its step; any other is dropped if it has to wait. -/
inductive Action where
  /-- The new node is acquired so often at once. -/
  | make (node : String) (blueprint : Blueprint) (acquisitions : Nat)
  | acquire (node : String)
  /-- The behaviour, if given, replaces a leaf's own teardown in this call. -/
  | release (node : String) (teardown : Option Behaviour) (task : Option String)
  | report (node : String) (report : Report) (task : Option String)
  | releaseAll (nodes : List String) (config : Config) (task : Option String)
  | openGate (gate : Gate)
  | cancel (task : String)
  | ask (query : Query)
  deriving DecidableEq, Repr

/-- An action performed so often; the answer is that of the last time. -/
structure Step where
  action : Action
  times : Nat := 1
  deriving DecidableEq, Repr

/-- What can be seen of a node that receives reports. -/
inductive NodeState where
  | leaf (usage : Usage) (census : Census)
  | sink (released : Bool) (reports : Nat)
  deriving DecidableEq, Repr

inductive Answer where
  | nothing
  | returned (outcome : Outcome)
  | pending
  | cancelled
  | names (all : List String)
  | count (n : Nat)
  | flag (b : Bool)
  | text (s : String)
  | usage (u : Usage)
  | reports (all : List Report)
  | state (all : List (String × NodeState))
  deriving DecidableEq, Repr

/-- What a step answers: its own answer, the events and log lines it gave rise to, and the named calls that
returned in it. -/
structure Reply where
  answer : Answer
  events : List String
  lines : List String
  returned : List (String × Outcome)
  deriving DecidableEq, Repr

/-- Why a script cannot be performed. -/
inductive Misuse where
  | unknownNode (name : String)
  | repeatedNode (name : String)
  | unsuitableNode (name : String)
  | unknownTask (name : String)
  deriving DecidableEq, Repr

def Misuse.message : Misuse → String
  | .unknownNode name => "no node is named " ++ name
  | .repeatedNode name => "there already is a node named " ++ name
  | .unsuitableNode name => "the node cannot be used so: " ++ name
  | .unknownTask name => "no pending call is named " ++ name

/-- The order in which aggregates are given when the order of siblings is left open. -/
def Fault.precedes (a b : Fault) : Bool :=
  a.display < b.display || (a.display == b.display && !(b.label < a.label))

def sortedTexts (texts : List String) : List String := texts.mergeSort fun a b => !(b < a)

namespace Outcome

/-- The same outcome, with the faults of an aggregate in a fixed order. -/
def canonical : Outcome → Outcome
  | .failed (.aggregate all) => .failed (.aggregate ⟨all.faults.mergeSort Fault.precedes⟩)
  | o => o

end Outcome

namespace Reply

/-- The same reply, with everything in a fixed order that siblings may do in any order. -/
def canonical (r : Reply) : Reply :=
  { answer := match r.answer with
      | .returned o => .returned o.canonical
      | a => a
    events := sortedTexts r.events
    lines := sortedTexts r.lines
    returned := r.returned.map fun (task, o) => (task, o.canonical) }

end Reply
end MetricPipeline
