import MetricPipeline.Config
import MetricPipeline.Failure

/-!
# Fan-out

Jobs that run side by side, at most as many at once as there are permits. A job takes a permit when it starts
and gives it back when it ends, however it ends. Only after that is it joined: its failure, if it has one, is
merged with those before. Jobs are joined one by one, in the order in which they have ended.
-/

namespace MetricPipeline

/-- A place in the list of jobs. -/
inductive Slot (α : Type) where
  | waiting (job : α)
  /-- The job has started, and it may have ended since. -/
  | started (job : α)
  | joined
  deriving DecidableEq, Repr

def Slot.isJoined {α : Type} : Slot α → Bool
  | .joined => true
  | _ => false

structure FanOut (α : Type) where
  /-- Free permits; none if their number is not limited. -/
  free : Option Nat
  slots : List (Slot α)
  /-- The jobs that have ended and are still to be joined, in the order in which they ended. -/
  queue : List Nat := []
  errors : Aggregate := {}
  deriving DecidableEq, Repr

namespace FanOut

/-- No more permits than these can be handed out. -/
def maxPermits : Nat := (1 <<< 61) - 1

/-- A limit that is too large is refused before any job has started. -/
def refusal : String :=
  "a semaphore may not have more than MAX_PERMITS permits (" ++ toString maxPermits ++ ")"

variable {α : Type}

def spawn? (config : Config) (jobs : List α) : Option (FanOut α) :=
  let slots := jobs.map Slot.waiting
  match config.releaseLimit with
  | none => some { free := none, slots }
  | some limit => if limit ≤ maxPermits then some { free := some limit, slots } else none

def hasPermit (f : FanOut α) : Bool := f.free != some 0

/-- Starts a job that waits, if a permit is free. -/
def start? (f : FanOut α) (i : Nat) : Option (FanOut α) :=
  match f.slots[i]? with
  | some (.waiting job) =>
    if f.hasPermit then
      some { f with free := f.free.map (· - 1), slots := f.slots.set i (.started job) }
    else none
  | _ => none

/-- Puts a job that has started in its next state. With its last one it gives its permit back and queues up. -/
def advance (f : FanOut α) (i : Nat) (job : α) (last : Bool) : FanOut α :=
  { f with
    free := if last then f.free.map (· + 1) else f.free
    slots := f.slots.set i (.started job)
    queue := if last then f.queue ++ [i] else f.queue }

/-- The job that has ended first of those that are still to be joined. -/
def next? (f : FanOut α) : Option Nat := f.queue.head?

/-- Takes what the next job has come to. -/
def join (f : FanOut α) (i : Nat) (failure : Option Failure) : FanOut α :=
  { f with
    slots := f.slots.set i .joined
    queue := f.queue.tail
    errors := failure.elim f.errors f.errors.push }

def isEnded (f : FanOut α) : Bool := f.slots.all Slot.isJoined

def result (f : FanOut α) : Except Failure Unit := f.errors.result

end FanOut
end MetricPipeline
