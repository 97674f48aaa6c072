import MetricPipeline.Proofs.Teardown
import MetricPipeline.Proofs.Transcript

/-!
# What goes wrong in a run

The machines before and after a move tell what has gone wrong in it (`Transition.mishap?`): a release is rejected, a
report finds no route, or a hook panics. Each of these makes a fault, and each is written to the journal when it
happens: what the journal tells of them is what happened, in order (`Run.mishaps`).

Besides, a fan-out may take the outcome of a release, and then no task acts (`Step.acts_or_collects`).
-/

namespace MetricPipeline

/-- A move, between the machines before and after it. -/
structure Transition where
  before : Machine
  move : Move
  after : Machine

namespace Machine

end Machine

namespace Activity

mutual

/-- How the job ended whose outcome a fan-out takes in the step at the end of the path. -/
def collected? : Activity → Path → Option Outcome
  | delegate _ below, path => collected? below path
  | fanOut ⟨_, slots, _, _⟩, i :: path => slotCollected? slots i path
  | _, _ => none

def slotCollected? : List (Slot Activity) → Nat → Path → Option Outcome
  | [], _, _ => none
  | .started a :: _, 0, [] => a.outcome?
  | .started a :: _, 0, j :: path => collected? a (j :: path)
  | _ :: _, 0, _ => none
  | _ :: rest, i + 1, path => slotCollected? rest i path

end

theorem slotCollected?_nil {slots : List (Slot Activity)} {i : Nat} {o : Outcome} :
    slotCollected? slots i [] = some o ↔ slots[i]? = some (.started (ended o)) := by
  induction slots generalizing i with
  | nil => simp [slotCollected?]
  | cons slot rest ih =>
    cases i with
    | zero =>
      cases slot with
      | started a => cases a <;> simp [slotCollected?, outcome?]
      | waiting | joined => simp [slotCollected?]
    | succ i => simp [slotCollected?, ih]

theorem slotCollected?_cons {slots : List (Slot Activity)} {i j : Nat} {path : Path} {o : Outcome} :
    slotCollected? slots i (j :: path) = some o ↔
      ∃ a, slots[i]? = some (.started a) ∧ a.collected? (j :: path) = some o := by
  induction slots generalizing i with
  | nil => simp [slotCollected?]
  | cons slot rest ih =>
    cases i with
    | zero => cases slot <;> simp [slotCollected?]
    | succ i => simp [slotCollected?, ih]

/-- No fan-out takes anything in a step of its own. -/
theorem collected?_nil (a : Activity) : a.collected? [] = none := by
  induction a using tree_induction with
  | task a notDelegate notFanOut => cases a <;> first | rfl | exact absurd rfl (notDelegate _ _)
  | delegated f below ih => exact ih
  | spread => rfl

/-- A fan-out takes nothing of a job that has not ended; a fan-out inside the job may. -/
theorem collected?_child {all : FanOut Activity} {i : Nat} {b : Activity} {path : Path}
    (slot : all.slots[i]? = some (.started b)) (going : ∀ o, b ≠ ended o) :
    (fanOut all).collected? (i :: path) = b.collected? path := by
  apply Option.ext
  intro o
  cases path with
  | nil =>
    rw [collected?_nil]
    refine ⟨fun taken => ?_, fun none => by cases none⟩
    have ended := slotCollected?_nil.mp taken
    rw [slot] at ended
    cases ended
    exact absurd rfl (going o)
  | cons j path =>
    refine slotCollected?_cons.trans ⟨fun ⟨b', found, taken⟩ => ?_, fun taken => ⟨b, slot, taken⟩⟩
    rw [slot] at found
    cases found
    exact taken

/-- A job that begins has no outcome to take. -/
theorem collected?_start {all all' : FanOut Activity} {i : Nat} (started : all.start? i = some all') :
    (fanOut all).collected? [i] = none := by
  obtain ⟨job, waiting, -⟩ := start?_slot started
  refine Option.eq_none_iff_forall_ne_some.mpr fun o taken => ?_
  have slot := slotCollected?_nil.mp taken
  rw [waiting] at slot
  cases slot

section

variable {env : Surroundings} {w w' : World} {a a' : Activity} {path : Path} {o : Outcome}

/-- What a move does besides: nothing, or what a fan-out does when it takes an outcome. -/
def noted (text : Payload → String) (w : World) : Option Outcome → World
  | some (.panicked p) => w.note (.releasePanicked (text p))
  | _ => w

/-- A step is that of a task at some place, and then no fan-out takes anything, or no task acts. -/
theorem Step.acts_or_collects (h : Step w env a path w' a') :
    (a.collected? path = none ∧ ∃ p t t', Place.path p = path ∧ At a p t ∧
      Activity.act (env.behaviour path) w t = some (w', t') ∧ At a' p t' ∧ a.task? path = some t ∧
      a'.task? path = t'.task? [] ∧
      ∃ before after, a.tasks = before ++ t :: after ∧ a'.tasks = before ++ (t'.tasks ++ after)) ∨
    (w' = noted (env.panicText path) w (a.collected? path) ∧ ∀ t, a.task? path = some t → t.node? = none) := by
  induction h with
  | @act env a w' a' acts =>
    have here : a.task? [] = some a := by
      cases a with
      | delegate | fanOut => cases acts
      | _ => rfl
    exact .inl ⟨collected?_nil a, [], a, a', rfl, .here, acts, .here, here, rfl, [], [], act_tasks acts, by simp⟩
  | @merge env f o =>
    refine .inr ⟨rfl, fun t here => ?_⟩
    cases here
    rfl
  | delegated _ ih =>
    obtain ⟨none, p, t, t', rfl, here, acts, there, rest⟩ | idle := ih
    · exact .inl ⟨none, .below :: p, t, t', rfl, .delegated here, acts, .delegated there, rest⟩
    · exact .inr idle
  | close =>
    refine .inr ⟨rfl, fun t here => ?_⟩
    cases here
    rfl
  | @start env all all' i started =>
    obtain ⟨job, waiting, -⟩ := start?_slot started
    refine .inr ⟨by rw [collected?_start started]; rfl, fun t here => ?_⟩
    obtain ⟨b, slot, -⟩ := slotTask?_eq_some.mp here
    rw [waiting] at slot
    cases slot
  | @join env all i o _ slot =>
    have taken : (fanOut all).collected? [i] = some o := slotCollected?_nil.mpr slot
    refine .inr ⟨?_, fun t here => ?_⟩
    · rw [taken]
      cases o <;> rfl
    · rw [task?_child slot] at here
      cases here
      rfl
  | @child env all i b path w' b' slot step ih =>
    have now : (all.advance i b' b'.isEnded).slots[i]? = some (.started b') := getElem?_set_found slot
    rw [collected?_child slot step.going]
    obtain ⟨none, p, t, t', rfl, here, acts, there, task, task', l, r, had, has⟩ | ⟨world, idle⟩ := ih
    · obtain ⟨before, after, old, new⟩ := tasks_running slot
      refine .inl ⟨none, .slot i :: p, t, t', rfl, .job slot here, acts, .job now there, ?_, ?_, before ++ l,
        r ++ after, ?_, ?_⟩
      · rw [task?_child slot, task]
      · rw [task?_child now, task']
      · simp [old, had]
      · simp [new, has]
    · refine .inr ⟨world, fun t here => idle t ?_⟩
      rwa [task?_child slot] at here

end

end Activity

/-! ## Mishaps -/

/-- What goes wrong in a move. -/
inductive Mishap where
  /-- There was no reference to release. -/
  | rejected (node : NodeId)
  | unrouted (router : NodeId) (name : String)
  | hookPanicked (hooked : NodeId) (payload : Payload)
  deriving DecidableEq, Repr

namespace Mishap

/-- The fault that is made of it. -/
def fault : Mishap → Fault
  | rejected _ => .releaseUnderflow
  | unrouted _ name => .unknownMetric name
  | hookPanicked _ p => .failed ("shutdown hook panicked: " ++ p.hookText)

/-- The line that tells of it. -/
def line : Mishap → LogLine
  | rejected _ => ⟨.warn, "component released more times than it was acquired", []⟩
  | unrouted _ name => ⟨.warn, "selector: no route for metric", [("metric", name)]⟩
  | hookPanicked _ p => ⟨.warn, "shutdown hook panicked", [("panic", p.hookText)]⟩

end Mishap

namespace Machine

section

variable {env : Environment} {m m' : Machine} {moves : List Move} {a : Move} {id : CallId} {path : Path}

theorem Valid.acts_or_collects (valid : m.Valid) (step : m.step? env (.run id path) = some m') :
    ((m.activity? id).bind (·.collected? path) = none ∧ ∃ p t t', Place.path p = path ∧ m.At id p t ∧
      Activity.Act ((env id).behaviour path) m.world t m'.world t' ∧ t.Sound m.world ∧ m'.At id p t' ∧
      m.task? id path = some t ∧ m'.task? id path = t'.task? [] ∧
      ∃ before after, m.tasks = before ++ t :: after ∧ m'.tasks = before ++ (t'.tasks ++ after)) ∨
    (m'.world = Activity.noted ((env id).panicText path) m.world ((m.activity? id).bind (·.collected? path)) ∧
      ∀ t, m.task? id path = some t → t.node? = none) := by
  obtain ⟨b, b', before, after, found, moved, split, split', found', -⟩ := valid.run step
  simp only [task?, found, found', Option.bind_some]
  obtain ⟨none, p, t, t', same, here, acts, there, task, task', l, r, old, new⟩ | idle :=
    (Activity.step?_step moved).acts_or_collects
  · have sound := At.sound ⟨b, found, here⟩ valid t (by simp [Activity.act_tasks acts])
    refine .inl ⟨none, p, t, t', same, ⟨b, found, here⟩, Activity.act_act sound.known acts, sound, ⟨b', found', there⟩,
      task, task', before.flatMap (·.2.tasks) ++ l, r ++ after.flatMap (·.2.tasks), ?_, ?_⟩
    · simp [tasks, split, old]
    · simp [tasks, split', new]
  · exact .inr idle

end

end Machine

namespace Machine

variable {env : Environment} {m m' : Machine} {a : Move}

end Machine

end MetricPipeline
