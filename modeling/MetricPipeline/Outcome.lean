import MetricPipeline.Failure

/-!
# Outcomes

How a call ends: it returns, with or without a failure, or it panics. A panic is turned into a failure at two
places only: a shutdown hook's by the wrapper that ran it, and a release's by the fan-out that started it.
Anywhere else it unwinds.
-/

namespace MetricPipeline

/-- What a panic carries: a fixed text, a text made for the occasion, or a value that is no text. -/
inductive Payload where
  | fixed (text : String)
  | composed (text : String)
  | other
  deriving DecidableEq, Repr

def Payload.text? : Payload → Option String
  | .fixed text | .composed text => some text
  | .other => none

inductive Outcome where
  | ok
  | failed (failure : Failure)
  | panicked (payload : Payload)
  deriving DecidableEq, Repr

/-- How a wrapper reports a hook that panicked. -/
def Payload.hookText (p : Payload) : String := p.text?.getD "unknown panic"

namespace Outcome

def ofResult : Except Failure Unit → Outcome
  | .ok _ => .ok
  | .error failure => .failed failure

/-- What a hook that ended so contributes to its wrapper's result. -/
def hookFailure? : Outcome → Option Failure
  | .ok => none
  | .failed failure => some failure
  | .panicked p => some (.failed ("shutdown hook panicked: " ++ p.hookText))

/-- What a release that ended so contributes to the fan-out it belongs to. A panic has the text with which the
runtime reports it. -/
def releaseFailure? (text : Payload → String) : Outcome → Option Failure
  | .ok => none
  | .failed failure => some failure
  | .panicked p => some (.single (.releasePanicked (text p)))

/-- How a wrapper's teardown ends, after its hook and the release below it. A panic from below unwinds, and
what the hook left is lost with it. -/
def afterHook (hookFailure : Option Failure) : Outcome → Outcome
  | .ok => ofResult (Failure.merge hookFailure.toList)
  | .failed failure => ofResult (Failure.merge (hookFailure.toList ++ [failure]))
  | .panicked p => .panicked p

end Outcome
end MetricPipeline
