import MetricPipeline.Behaviour
import MetricPipeline.Journal
import MetricPipeline.Usage

/-!
# The state shared by all calls

The nodes with their usage counts, the gates that are open, and the journal with its newest entry first.
-/

namespace MetricPipeline

structure Node where
  component : Component
  usage : Usage := {}
  deriving DecidableEq, Repr

structure World where
  nodes : List Node := []
  opened : List Gate := []
  journal : List Entry := []
  deriving DecidableEq, Repr, Inhabited

namespace World

def note (w : World) (e : Entry) : World := { w with journal := e :: w.journal }

def component? (w : World) (x : NodeId) : Option Component := w.nodes[x]?.map (·.component)

/-- The usage of a node that counts its references. -/
def usage? (w : World) (x : NodeId) : Option Usage :=
  match w.nodes[x]? with
  | some n => if n.component.isCounted then some n.usage else none
  | none => none

/-- The usage of any node: one that counts no references holds none and is never torn down. -/
def usage (w : World) (x : NodeId) : Usage := (w.usage? x).getD {}

def setUsage (w : World) (x : NodeId) (u : Usage) : World :=
  { w with nodes := w.nodes.modify x fun n => { n with usage := u } }

def isOpen (w : World) (gate : Gate) : Bool := w.opened.contains gate

def openGate (w : World) (gate : Gate) : World := { w with opened := gate :: w.opened }

/-- Adds a reference. -/
def increment (w : World) (holder : Holder) (x : NodeId) : World :=
  match w.usage? x with
  | some u => (w.setUsage x u.acquire).note (.acquired holder x)
  | none => w.note (.acquired holder x)

/-- Reads the guard after a reference was added: a node once torn down stays so. -/
def inspect (w : World) (x : NodeId) (refs : Nat) : World :=
  match w.usage? x with
  | some u => if u.tornDown then w.note (.acquiredLate x refs) else w
  | none => w

/-- Both halves of an acquisition, with nothing between them. -/
def acquire (w : World) (holder : Holder) (x : NodeId) : World :=
  let w := w.increment holder x
  match w.usage? x with
  | some u => w.inspect x u.refs
  | none => w

/-- Makes a node and takes the references it holds; refused if one of them is to a node not yet made. -/
def build? (w : World) (c : Component) : Option World :=
  let x := w.nodes.length
  let held := c.holds x
  if held.all fun e => decide (e.2 < x) then
    some (held.foldl (fun w e => w.acquire e.1 e.2) { w with nodes := w.nodes ++ [⟨c, {}⟩] })
  else none

@[simp] theorem nodes_note (w : World) (e : Entry) : (w.note e).nodes = w.nodes := rfl
@[simp] theorem opened_note (w : World) (e : Entry) : (w.note e).opened = w.opened := rfl
@[simp] theorem journal_note (w : World) (e : Entry) : (w.note e).journal = e :: w.journal := rfl
@[simp] theorem component?_note (w : World) (e : Entry) : (w.note e).component? = w.component? := rfl
@[simp] theorem usage?_note (w : World) (e : Entry) : (w.note e).usage? = w.usage? := rfl

@[simp] theorem opened_setUsage (w : World) (x : NodeId) (u : Usage) :
    (w.setUsage x u).opened = w.opened := rfl
@[simp] theorem journal_setUsage (w : World) (x : NodeId) (u : Usage) :
    (w.setUsage x u).journal = w.journal := rfl

@[simp] theorem length_nodes_setUsage (w : World) (x : NodeId) (u : Usage) :
    (w.setUsage x u).nodes.length = w.nodes.length := by simp [setUsage]

@[simp] theorem component?_setUsage (w : World) (x : NodeId) (u : Usage) :
    (w.setUsage x u).component? = w.component? := by
  funext y
  by_cases h : x = y <;> cases hy : w.nodes[y]? <;>
    simp [component?, setUsage, h, hy]

/-- Setting the usage of a node is seen at that node alone, and there only if it counts references. -/
theorem usage?_setUsage (w : World) (x y : NodeId) (u : Usage) :
    (w.setUsage x u).usage? y = if x = y then (w.usage? y).map fun _ => u else w.usage? y := by
  by_cases h : x = y
  · subst h
    cases hx : w.nodes[x]? with
    | none => simp [usage?, setUsage, hx]
    | some n => by_cases counted : n.component.isCounted = true <;>
        simp [usage?, setUsage, hx, counted]
  · simp [usage?, setUsage, h]

end World
end MetricPipeline
