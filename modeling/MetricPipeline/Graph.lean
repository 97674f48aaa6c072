import MetricPipeline.Table
import MetricPipeline.Config

/-!
# Graph nodes

Nodes are numbered in the order in which they are made, and a node refers only to nodes made before it, so
the graph has no cycle. A node may be shared by any number of others.
-/

namespace MetricPipeline

abbrev NodeId := Nat

inductive Component where
  /-- Receives reports and owns a teardown, which runs when its last reference is released. -/
  | leaf
  /-- Receives reports; counts no references, and every release runs its teardown. -/
  | uncounted
  /-- A named receiver of reports with nothing to tear down. -/
  | sink (name : String)
  /-- Passes reports on unchanged, and runs a shutdown hook before it releases the node it wraps. -/
  | hooked (delegate : NodeId)
  /-- Passes a report to the node under its name. -/
  | router (routes : Table NodeId) (config : Config)
  deriving DecidableEq, Repr

/-- Who holds a reference: someone outside the graph, a router under one of its keys, or a wrapper. -/
inductive Holder where
  | outside
  | route (router : NodeId) (key : String)
  | wrapper (hooked : NodeId)
  deriving DecidableEq, Repr

namespace Component

/-- The references that a component takes when it is made as the given node, and gives back when it is torn
down: one for each key that was kept, or one for the node it wraps. -/
def holds (x : NodeId) : Component → List (Holder × NodeId)
  | .leaf | .uncounted | .sink _ => []
  | .hooked delegate => [(.wrapper x, delegate)]
  | .router routes _ => routes.entries.map fun e => (.route x e.1, e.2)

def isCounted : Component → Bool
  | .uncounted => false
  | _ => true

end Component
end MetricPipeline
