/-!
# Failures

What a component can report when a report cannot be routed or a teardown goes wrong. Independent failures
are merged into one aggregate. An aggregate holds single faults only: pushing a failure adds the faults it
consists of, so nesting never arises and the order of pushing is kept.
-/

namespace MetricPipeline

/-- One cause. -/
inductive Fault where
  | unknownMetric (name : String)
  | failed (text : String)
  | releasePanicked (text : String)
  | releaseUnderflow
  deriving DecidableEq, Repr

/-- Faults in the order in which they were collected. -/
structure Aggregate where
  faults : List Fault := []
  deriving DecidableEq, Repr, Inhabited

/-- What a call fails with. An aggregate of no faults is a failure too. -/
inductive Failure where
  | single (fault : Fault)
  | aggregate (all : Aggregate)
  deriving DecidableEq, Repr

namespace Fault

def label : Fault → String
  | .unknownMetric _ => "pipeline_unknown_metric"
  | .failed _ => "pipeline_failed"
  | .releasePanicked _ => "pipeline_release_panicked"
  | .releaseUnderflow => "pipeline_release_underflow"

def message : Fault → String
  | .unknownMetric name => "unknown metric: " ++ name
  | .failed text => "error: " ++ text
  | .releasePanicked text => "release panicked: " ++ text
  | .releaseUnderflow => "release without acquire"

def display : Fault → String
  | .unknownMetric name => "selector: unknown metric: " ++ name
  | .failed text => text
  | .releasePanicked text => "release task panicked: " ++ text
  | .releaseUnderflow => "component released more times than it was acquired"

end Fault

namespace Failure

def failed (text : String) : Failure := .single (.failed text)

/-- The single faults a failure consists of. -/
def faults : Failure → List Fault
  | .single fault => [fault]
  | .aggregate all => all.faults

end Failure

namespace Aggregate

def push (all : Aggregate) (failure : Failure) : Aggregate := ⟨all.faults ++ failure.faults⟩

def ofList (failures : List Failure) : Aggregate := failures.foldl push {}

def size (all : Aggregate) : Nat := all.faults.length

def isEmpty (all : Aggregate) : Bool := all.faults.isEmpty

/-- Nothing collected is success. -/
def result (all : Aggregate) : Except Failure Unit :=
  if all.isEmpty then .ok () else .error (.aggregate all)

/-- The same faults collected in the opposite order. -/
def reverse (all : Aggregate) : Aggregate := ofList (all.faults.reverse.map .single)

/-- Only the singular is special: no faults are counted in the plural. -/
def heading (count : Nat) : String :=
  if count = 1 then "1 error occurred:" else toString count ++ " errors occurred:"

def display (all : Aggregate) : String :=
  all.faults.foldl (fun text fault => text ++ "\n\t* " ++ fault.display) (heading all.size)

@[simp] theorem faults_push (all : Aggregate) (failure : Failure) :
    (all.push failure).faults = all.faults ++ failure.faults := rfl

theorem faults_foldl_push (all : Aggregate) (failures : List Failure) :
    (failures.foldl push all).faults = all.faults ++ failures.flatMap Failure.faults := by
  induction failures generalizing all with
  | nil => simp
  | cons f rest ih => simp [ih]

theorem faults_ofList (failures : List Failure) :
    (ofList failures).faults = failures.flatMap Failure.faults := by
  simp [ofList, faults_foldl_push]

end Aggregate

namespace Failure

/-- One failure for many, or success if they hold no fault between them. -/
def merge (failures : List Failure) : Except Failure Unit := (Aggregate.ofList failures).result

def label : Failure → String
  | .single fault => fault.label
  | .aggregate _ => "pipeline_aggregate"

def message : Failure → String
  | .single fault => fault.message
  | .aggregate all => toString all.size ++ " errors"

def display : Failure → String
  | .single fault => fault.display
  | .aggregate all => all.display

end Failure
end MetricPipeline
