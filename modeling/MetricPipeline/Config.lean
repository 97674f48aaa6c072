namespace MetricPipeline

/-- How a fan-out releases its components. -/
structure Config where
  /-- At most this many releases run at once; zero stands for no limit. -/
  maxConcurrentReleases : Nat := 0
  deriving DecidableEq, Repr, Inhabited

def Config.releaseLimit (c : Config) : Option Nat :=
  if c.maxConcurrentReleases = 0 then none else some c.maxConcurrentReleases

end MetricPipeline
