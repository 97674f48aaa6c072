import MetricPipeline.Table
import MetricPipeline.Failure
import MetricPipeline.Config
import MetricPipeline.Sample
import MetricPipeline.Report
import MetricPipeline.Usage
import MetricPipeline.Outcome
import MetricPipeline.Behaviour
import MetricPipeline.Graph
import MetricPipeline.Journal
import MetricPipeline.Surroundings
import MetricPipeline.World
import MetricPipeline.FanOut
import MetricPipeline.Activity
import MetricPipeline.Machine
import MetricPipeline.Census
import MetricPipeline.Script
import MetricPipeline.Session
import MetricPipeline.Race
import MetricPipeline.Proofs.Act
import MetricPipeline.Proofs.Run
import MetricPipeline.Proofs.Account
import MetricPipeline.Proofs.Guard
import MetricPipeline.Proofs.References
import MetricPipeline.Proofs.Holders
import MetricPipeline.Proofs.Lifecycle
import MetricPipeline.Proofs.Conservation
import MetricPipeline.Proofs.AtMostOnce
import MetricPipeline.Proofs.Place
import MetricPipeline.Proofs.Teardown
import MetricPipeline.Proofs.Outcomes
import MetricPipeline.Proofs.Permits
import MetricPipeline.Proofs.Termination
import MetricPipeline.Proofs.Transcript
import MetricPipeline.Proofs.Nesting
import MetricPipeline.Proofs.Routing
import MetricPipeline.Proofs.Delivery
import MetricPipeline.Proofs.Visits
import MetricPipeline.Proofs.Presence
import MetricPipeline.Proofs.Reception
import MetricPipeline.Proofs.Gathering
import MetricPipeline.Proofs.Observation
import MetricPipeline.Proofs.Collection
import MetricPipeline.Proofs.Capacity
import MetricPipeline.Proofs.Easing
import MetricPipeline.Proofs.Unwrapping
import MetricPipeline.Proofs.Flattening
import MetricPipeline.Proofs.Bindings
import MetricPipeline.Proofs.Introspection
import MetricPipeline.Proofs.Restitution
import MetricPipeline.Proofs.History
import MetricPipeline.Proofs.Panics
import MetricPipeline.Proofs.Unbroken
import MetricPipeline.Proofs.Log
import MetricPipeline.Proofs.Completion
import MetricPipeline.Proofs.Agreement
