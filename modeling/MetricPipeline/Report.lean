import MetricPipeline.Table
import MetricPipeline.Sample

/-!
# Reports

One sample of a named metric over an interval, with labels. Only the name decides where a report goes; all
else is handed on untouched. A report starts with an empty interval and no labels and is completed by a
sequence of edits.
-/

namespace MetricPipeline

/-- An instant: whole seconds since the epoch, possibly negative, and the nanoseconds after them. -/
structure Timestamp where
  seconds : Int
  nanos : Nat
  nanos_lt : nanos < 1000000000 := by decide
  deriving DecidableEq, Repr

def Timestamp.epoch : Timestamp := ⟨0, 0, by decide⟩

/-- The end of the interval may lie before its start: the interval is kept as it was given. -/
structure Report where
  name : String
  start : Timestamp
  stop : Timestamp
  value : Sample
  labels : Table String
  deriving DecidableEq, Repr

namespace Report

/-- A report made at an instant covers that instant. -/
def new (now : Timestamp) (name : String) (value : Sample) : Report :=
  ⟨name, now, now, value, .empty⟩

def withInterval (r : Report) (start stop : Timestamp) : Report := { r with start, stop }

/-- Adds one label, or replaces the one with its key. -/
def withLabel (r : Report) (key value : String) : Report :=
  { r with labels := r.labels.insert key value }

def withLabels (r : Report) (labels : Table String) : Report := { r with labels }

inductive Edit where
  | interval (start stop : Timestamp)
  | label (key value : String)
  | labels (all : Table String)
  deriving DecidableEq, Repr

def edit (r : Report) : Edit → Report
  | .interval start stop => r.withInterval start stop
  | .label key value => r.withLabel key value
  | .labels all => r.withLabels all

def build (now : Timestamp) (name : String) (value : Sample) (edits : List Edit) : Report :=
  edits.foldl edit (new now name value)

/-- Reports agree when all their parts do. Samples agree as numbers, so a report of not-a-number does not
agree with itself. -/
def agrees (a b : Report) : Bool :=
  decide (a.name = b.name) && decide (a.start = b.start) && decide (a.stop = b.stop) &&
    a.value.agrees b.value && decide (a.labels = b.labels)

end Report
end MetricPipeline
