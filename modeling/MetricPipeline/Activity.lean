import MetricPipeline.FanOut
import MetricPipeline.Surroundings
import MetricPipeline.World

/-!
# Activities

What a call has still to do, as a tree: a call is one task until it fans out, and then waits for one task a
component. `Activity.step?` takes the next atomic step of one task, named by the way down to it, and may be
applied to the tasks of all calls in any order. A call that ends has no task left, and a call that is dropped
takes its tasks with it.

`Activity.weight` and `World.potential` bound the steps that are left: each step lowers their sum.
-/

namespace MetricPipeline

inductive Activity where
  | ended (outcome : Outcome)
  | acquire (holder : Holder) (node : NodeId)
  /-- The reference was added, and the guard is still to be read. -/
  | inspect (node : NodeId) (refs : Nat)
  | release (holder : Holder) (node : NodeId)
  /-- The last reference was dropped, and the guard is still to be set. -/
  | fire (node : NodeId)
  | report (node : NodeId) (report : Report)
  /-- User code that has begun, waits for a gate if there is one, and will end as it says. -/
  | work (work : Work) (wait : Option Gate) (outcome : Outcome)
  /-- A wrapper's hook has ended, and the release of the node it wraps is under way. -/
  | delegate (hookFailure : Option Failure) (below : Activity)
  | fanOut (all : FanOut Activity)

namespace Activity

def outcome? : Activity → Option Outcome
  | ended outcome => some outcome
  | _ => none

def isEnded (a : Activity) : Bool := a.outcome?.isSome

def begin (env : Work → Behaviour) (w : World) (work : Work) : World × Activity :=
  (w.note (.began work), .work work (env work).wait (env work).outcome)

def spread (config : Config) (releases : List (Holder × NodeId)) : Activity :=
  match FanOut.spawn? config (releases.map fun r => release r.1 r.2) with
  | some all => .fanOut all
  | none => .ended (.panicked (.composed FanOut.refusal))

/-- The teardown of a node whose guard has just been set. -/
def teardown (env : Work → Behaviour) (w : World) (x : NodeId) : World × Activity :=
  match w.component? x with
  | some .leaf | some .uncounted => begin env w ⟨x, .teardown⟩
  | some (.sink name) => (w.note (.closed x name), .ended .ok)
  | some (.hooked _) => begin env w ⟨x, .hook⟩
  | some (.router routes config) =>
    (w.note (.scattered x routes.size), spread config ((Component.router routes config).holds x))
  | none => (w, .ended .ok)

/-- Counts the release, and tears the node down at once if it counts no references. -/
def drop (env : Work → Behaviour) (w : World) (holder : Holder) (x : NodeId) : World × Activity :=
  let w := w.note (.released holder x)
  match w.usage? x with
  | none => teardown env w x
  | some u =>
    match u.drop? with
    | none => (w.note (.underflowed x), .ended (.failed (.single .releaseUnderflow)))
    | some u =>
      ((w.setUsage x u).note (.dropped x u.refs), if u.refs = 0 then .fire x else .ended .ok)

/-- Sets the guard and begins the teardown; a guard already set ends the release quietly. -/
def trigger (env : Work → Behaviour) (w : World) (x : NodeId) : World × Activity :=
  match (w.usage? x).bind Usage.fire? with
  | none => (w.note (.releasedLate x), .ended .ok)
  | some u => teardown env ((w.setUsage x u).note (.tornDown x)) x

/-- Hands a report to a node: a receiver keeps it, a wrapper and a router pass it on. -/
def hand (env : Work → Behaviour) (w : World) (x : NodeId) (r : Report) : World × Activity :=
  let w := w.note (.handed x r)
  match w.component? x with
  | some .leaf | some .uncounted | some (.sink _) => begin env w ⟨x, .report⟩
  | some (.hooked below) => (w, .report below r)
  | some (.router routes _) =>
    match routes.get? r.name with
    | some y => (w, .report y r)
    | none => (w.note (.unrouted x r.name), .ended (.failed (.single (.unknownMetric r.name))))
  | none => (w, .ended .ok)

/-- Ends a piece of user code. A hook, however it ended, is followed by the release of the wrapped node. -/
def conclude (w : World) (work : Work) (outcome : Outcome) : World × Activity :=
  let w := w.note (.finished work outcome)
  match work.duty, w.component? work.node with
  | .hook, some (.hooked below) =>
    let w := match outcome with
      | .panicked p => w.note (.hookPanicked work.node p)
      | _ => w
    (w, .delegate outcome.hookFailure? (.release (.wrapper work.node) below))
  | _, _ => (w, .ended outcome)

/-- The next step of a task that is not a fan-out and waits for no other. -/
def act (env : Work → Behaviour) (w : World) : Activity → Option (World × Activity)
  | acquire holder x =>
    let w := w.increment holder x
    some (w, match w.usage? x with
      | some u => inspect x u.refs
      | none => ended .ok)
  | inspect x refs => some (w.inspect x refs, ended .ok)
  | release holder x => some (drop env w holder x)
  | fire x => some (trigger env w x)
  | report x r => some (hand env w x r)
  | work k (some gate) outcome =>
    if w.isOpen gate then some (w.note (.resumed k), work k none outcome) else none
  | work k none outcome => some (conclude w k outcome)
  | _ => none

/-- Joins a release that has ended. -/
def join (text : Payload → String) (w : World) (all : FanOut Activity) (i : Nat) (outcome : Outcome) :
    World × Activity :=
  let w := match outcome with
    | .panicked p => w.note (.releasePanicked (text p))
    | _ => w
  (w, fanOut (all.join i (outcome.releaseFailure? text)))

mutual

/-- One step of the task at the end of the path. -/
def step? (env : Surroundings) (w : World) : Activity → Path → Option (World × Activity)
  | delegate hookFailure (ended outcome), [] => some (w, ended (outcome.afterHook hookFailure))
  | delegate hookFailure below, path =>
    (step? env w below path).map fun s => (s.1, delegate hookFailure s.2)
  | fanOut ⟨free, slots, queue, errors⟩, [] =>
    let all : FanOut Activity := ⟨free, slots, queue, errors⟩
    if all.isEnded then some (w, ended (.ofResult all.result)) else none
  | fanOut ⟨free, slots, queue, errors⟩, i :: path =>
    let all : FanOut Activity := ⟨free, slots, queue, errors⟩
    match slots[i]?, path with
    | some (.waiting _), [] => (all.start? i).map fun all => (w, fanOut all)
    | some (.started (ended outcome)), [] =>
      if all.next? = some i then some (join (env.panicText [i]) w all i outcome) else none
    | _, _ =>
      (stepSlot? (env.under [i]) w slots i path).map fun s => (s.1, fanOut (all.advance i s.2 s.2.isEnded))
  | a, [] => act (env.behaviour []) w a
  | _, _ :: _ => none

/-- One step inside the job of one slot. -/
def stepSlot? (env : Surroundings) (w : World) :
    List (Slot Activity) → Nat → Path → Option (World × Activity)
  | [], _, _ => none
  | .started a :: _, 0, path => step? env w a path
  | _ :: _, 0, _ => none
  | _ :: rest, i + 1, path => stepSlot? env w rest i path

end

mutual

/-- The first task that can take a step. -/
def ready? (w : World) : Activity → Option Path
  | ended _ => none
  | work _ (some gate) _ => if w.isOpen gate then some [] else none
  | delegate _ (ended _) => some []
  | delegate _ below => ready? w below
  | fanOut ⟨free, slots, queue, errors⟩ =>
    let all : FanOut Activity := ⟨free, slots, queue, errors⟩
    match all.next? with
    | some i => some [i]
    | none => if all.isEnded then some [] else readySlot? w all.hasPermit slots 0
  | _ => some []

/-- The first job that can start, or go on. -/
def readySlot? (w : World) (permit : Bool) : List (Slot Activity) → Nat → Option Path
  | [], _ => none
  | .waiting _ :: rest, i => if permit then some [i] else readySlot? w permit rest (i + 1)
  | .started a :: rest, i =>
    match ready? w a with
    | some path => some (i :: path)
    | none => readySlot? w permit rest (i + 1)
  | .joined :: rest, i => readySlot? w permit rest (i + 1)

end

mutual

/-- Whether the call may be dropped here. A release is never dropped between the decrement and the guard that
it decides, nor an acquisition between its two halves. -/
def isInterruptible : Activity → Bool
  | inspect _ _ | fire _ => false
  | delegate _ below => isInterruptible below
  | fanOut ⟨_, slots, _, _⟩ => slotsInterruptible slots
  | _ => true

def slotsInterruptible : List (Slot Activity) → Bool
  | [] => true
  | .started a :: rest => isInterruptible a && slotsInterruptible rest
  | _ :: rest => slotsInterruptible rest

end

mutual

def weight : Activity → Nat
  | ended _ => 0
  | acquire _ _ => 2
  | inspect _ _ => 1
  | release _ _ => 3
  | fire _ => 1
  | report x _ => x + 3
  | work k wait _ => (if k.duty = .hook then 5 else 1) + (if wait.isSome then 1 else 0)
  | delegate _ below => weight below + 1
  | fanOut ⟨_, slots, _, _⟩ => slotsWeight slots + 1

def slotsWeight : List (Slot Activity) → Nat
  | [] => 0
  | .waiting a :: rest => weight a + 2 + slotsWeight rest
  | .started a :: rest => weight a + 1 + slotsWeight rest
  | .joined :: rest => slotsWeight rest

end

end Activity

/-- The steps that a node's teardown can still give rise to, less those of the releases below it. -/
def Node.potential (n : Node) : Nat :=
  if n.usage.tornDown then 0
  else match n.component with
    | .leaf | .uncounted => 2
    | .sink _ => 1
    | .hooked _ => 6
    | .router routes _ => 5 * routes.size + 1

def World.potential (w : World) : Nat := w.nodes.foldl (fun n node => n + node.potential) 0

end MetricPipeline
