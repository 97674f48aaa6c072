import MetricPipeline.World

/-!
# What the journal says of one node

Counts of what happened to a node, read off the journal.
-/

namespace MetricPipeline

/-- How often a node was acquired and released, how often its teardown was begun, and how many reports it
was handed. -/
structure Census where
  acquires : Nat := 0
  releases : Nat := 0
  teardowns : Nat := 0
  reports : Nat := 0
  deriving DecidableEq, Repr

def Census.count (x : NodeId) (c : Census) : Entry → Census
  | .acquired _ y => if y = x then { c with acquires := c.acquires + 1 } else c
  | .released _ y => if y = x then { c with releases := c.releases + 1 } else c
  | .began ⟨y, .teardown⟩ => if y = x then { c with teardowns := c.teardowns + 1 } else c
  | .handed y _ => if y = x then { c with reports := c.reports + 1 } else c
  | _ => c

namespace World

def census (w : World) (x : NodeId) : Census := w.journal.foldl (Census.count x) {}

/-- The reports a node was handed, oldest first. -/
def received (w : World) (x : NodeId) : List Report :=
  w.journal.reverse.filterMap fun
    | .handed y r => if y = x then some r else none
    | _ => none

end World
end MetricPipeline
