import MetricPipeline.Proofs.Lifecycle

/-!
# Conservation of faults

A fault is raised by user code that fails, or by a release that has no reference to drop. From there it is
carried by one task: it is merged into what a wrapper or a fan-out has collected, and in the end a call returns
with it. `Step.carried` says that no step loses or adds one, so all calls together return what was raised
(`Lifecycle.returned_perm_raised`), as long as no teardown panics: a fan-out turns a panic into a fault of its
own.

What is raised in a lifecycle depends on which nodes are torn down and on how many releases underflow, not on
how the calls interleave (`Alike.raised_perm`).
-/

namespace MetricPipeline

/-- The faults a call returns. -/
def Outcome.faults : Outcome → List Fault
  | failed failure => failure.faults
  | ok | panicked _ => []

/-- The faults that user code raises. A hook that panics has failed. -/
def Work.faults (k : Work) (o : Outcome) : List Fault :=
  match k.duty with
  | .teardown => o.faults
  | .hook => o.hookFailure?.elim [] Failure.faults
  | .report => []

namespace Entry

def raised : Entry → List Fault
  | finished k o => k.faults o
  | underflowed _ => [.releaseUnderflow]
  | _ => []

def answers : Entry → List (CallId × Outcome)
  | returned id o => [(id, o)]
  | _ => []

end Entry

namespace World

def raised (w : World) : List Fault := w.journal.flatMap Entry.raised

/-- How each call ended that has returned. -/
def answers (w : World) : List (CallId × Outcome) := w.journal.flatMap Entry.answers

def returned (w : World) : List Fault := w.answers.flatMap (·.2.faults)

@[simp] theorem raised_note (w : World) (e : Entry) : (w.note e).raised = e.raised ++ w.raised := List.flatMap_cons

@[simp] theorem answers_note (w : World) (e : Entry) : (w.note e).answers = e.answers ++ w.answers :=
  List.flatMap_cons

@[simp] theorem raised_setUsage (w : World) (x : NodeId) (u : Usage) : (w.setUsage x u).raised = w.raised := rfl

@[simp] theorem answers_setUsage (w : World) (x : NodeId) (u : Usage) : (w.setUsage x u).answers = w.answers := rfl

theorem raised_inspect (w : World) (x : NodeId) (refs : Nat) : (w.inspect x refs).raised = w.raised :=
  flatMap_inspect _ _ _ fun _ _ => rfl

end World

theorem Outcome.faults_ofResult (all : Aggregate) : (Outcome.ofResult all.result).faults = all.faults := by
  unfold Aggregate.result
  split
  · rename_i empty
    exact (List.isEmpty_iff.mp empty).symm
  · rfl

theorem Outcome.faults_afterHook {o : Outcome} (calm : ∀ p, o ≠ .panicked p) (hookFailure : Option Failure) :
    (o.afterHook hookFailure).faults = hookFailure.elim [] Failure.faults ++ o.faults := by
  cases o with
  | panicked p => exact absurd rfl (calm p)
  | ok | failed =>
    unfold afterHook Failure.merge
    rw [faults_ofResult, Aggregate.faults_ofList]
    cases hookFailure <;> simp [faults]

theorem Outcome.afterHook_calm {o : Outcome} (calm : ∀ p, o ≠ .panicked p) (hookFailure : Option Failure) :
    ∀ p, o.afterHook hookFailure ≠ .panicked p := by
  have returns : ∀ (r : Except Failure Unit) p, Outcome.ofResult r ≠ .panicked p := by
    intro r p
    cases r <;> simp [ofResult]
  cases o with
  | panicked p => exact absurd rfl (calm p)
  | ok | failed => exact returns _

namespace Activity

mutual

/-- The faults that a call has collected. -/
def faults : Activity → List Fault
  | ended o => o.faults
  | delegate hookFailure below => hookFailure.elim [] Failure.faults ++ faults below
  | fanOut ⟨_, slots, _, errors⟩ => errors.faults ++ slotsFaults slots
  | _ => []

def slotsFaults : List (Slot Activity) → List Fault
  | [] => []
  | .waiting a :: rest => faults a ++ slotsFaults rest
  | .started a :: rest => faults a ++ slotsFaults rest
  | .joined :: rest => slotsFaults rest

end

mutual

/-- The call neither has panicked nor will, and is about releases only. -/
def Calm : Activity → Prop
  | ended o => ∀ p, o ≠ .panicked p
  | report _ _ => False
  | work k _ o => k.duty ≠ .report ∧ (k.duty = .teardown → ∀ p, o ≠ .panicked p)
  | delegate _ below => Calm below
  | fanOut ⟨_, slots, _, _⟩ => SlotsCalm slots
  | _ => True

def SlotsCalm : List (Slot Activity) → Prop
  | [] => True
  | .waiting a :: rest => Calm a ∧ SlotsCalm rest
  | .started a :: rest => Calm a ∧ SlotsCalm rest
  | .joined :: rest => SlotsCalm rest

end

theorem slotsFaults_append (xs ys : List (Slot Activity)) :
    slotsFaults (xs ++ ys) = slotsFaults xs ++ slotsFaults ys := by
  induction xs with
  | nil => rfl
  | cons slot rest ih => cases slot <;> simp [slotsFaults, ih]

theorem slotsCalm_append {xs ys : List (Slot Activity)} :
    SlotsCalm (xs ++ ys) ↔ SlotsCalm xs ∧ SlotsCalm ys := by
  induction xs with
  | nil => simp [SlotsCalm]
  | cons slot rest ih => cases slot <;> simp [SlotsCalm, ih, and_assoc]

theorem slotsFaults_joined {slots : List (Slot Activity)} (h : slots.all Slot.isJoined = true) :
    slotsFaults slots = [] := by
  induction slots with
  | nil => rfl
  | cons slot rest ih =>
    obtain ⟨first, others⟩ := Bool.and_eq_true_iff.mp (List.all_cons.symm.trans h)
    cases slot with
    | joined => exact ih others
    | waiting | started => simp [Slot.isJoined] at first

/-- A fan-out begins with nothing collected and nothing to panic. -/
theorem spread_calm {config : Config} (admissible : config.isAdmissible = true) (rs : List Reference) :
    (spread config rs).Calm ∧ (spread config rs).faults = [] := by
  have jobs : SlotsCalm ((rs.map fun r => release r.1 r.2).map .waiting) ∧
      slotsFaults ((rs.map fun r => release r.1 r.2).map .waiting) = [] := by
    induction rs with
    | nil => simp [SlotsCalm, slotsFaults]
    | cons r rest ih => simpa [SlotsCalm, slotsFaults, Calm, faults] using ih
  unfold spread
  rw [FanOut.spawn?_eq, admissible]
  simpa [Calm, faults] using jobs

section

variable {env : Work → Behaviour} {w w' : World}

theorem undertaking_calm (unpanicked : ∀ x p, (env ⟨x, .teardown⟩).outcome ≠ .panicked p) {c : Component}
    (admissible : c.isAdmissible = true) (x : NodeId) :
    (c.undertaking env x).Calm ∧ (c.undertaking env x).faults = [] := by
  cases c with
  | leaf | uncounted => exact ⟨⟨by simp, fun _ => unpanicked x⟩, rfl⟩
  | sink => exact ⟨by simp [Component.undertaking, Calm], rfl⟩
  | hooked below => exact ⟨⟨by simp, by simp⟩, rfl⟩
  | router routes config => exact spread_calm admissible _

theorem act_faults {t : Activity} {s : World × Activity} (h : act env w t = some s) : t.faults = [] := by
  cases t with
  | ended | delegate | fanOut => simp [act] at h
  | _ => rfl

/-- A task that acts goes on with the faults that it raises. -/
theorem Act.carried {t t' : Activity} (h : Act env w t w' t') (sound : t.Sound w) (calm : t.Calm)
    (unpanicked : ∀ x p, (env ⟨x, .teardown⟩).outcome ≠ .panicked p)
    (admissible : ∀ x c, w.component? x = some c → c.isAdmissible = true) (q : Fault → Bool) :
    t'.Calm ∧ t'.faults.countP q + w.raised.countP q = w'.raised.countP q := by
  cases h with
  | acquire | acquireUncounted | drop | dropLast | late => simp [Calm, faults, Outcome.faults, Entry.raised]
  | inspect =>
    rw [World.raised_inspect]
    simp [Calm, faults, Outcome.faults]
  | underflow => simp [Calm, faults, Outcome.faults, Failure.faults, Entry.raised, List.countP_cons, Nat.add_comm]
  | releaseUncounted kind =>
    obtain ⟨calm', none⟩ := undertaking_calm unpanicked (admissible _ _ kind) _
    rw [none]
    exact ⟨calm', by simp [Entry.raised]⟩
  | @fire x u c counted unfired kind =>
    obtain ⟨calm', none⟩ := undertaking_calm unpanicked (admissible _ _ kind) x
    have silent : (c.opening x).raised = [] := by cases c <;> rfl
    rw [none, World.raised_note, World.raised_note, silent]
    exact ⟨calm', by simp [Entry.raised]⟩
  | receive | forward | route | unrouted => exact calm.elim
  | resume => exact ⟨calm, by simp [faults, Entry.raised]⟩
  | hookEnd | hookPanic => simp [Calm, faults, Entry.raised, Work.faults]
  | @workEnd k o other =>
    obtain ⟨x, duty⟩ := k
    cases duty with
    | teardown => exact ⟨calm.2 rfl, by simp [faults, Entry.raised, Work.faults]⟩
    | report => exact absurd rfl calm.1
    | hook =>
      obtain ⟨below, kind⟩ := sound.2 rfl
      exact absurd kind (other rfl below)

/-- No fault is lost, doubled or made up on the way up. -/
theorem Step.carried {env : Surroundings} {a a' : Activity} {path : Path} (h : Step w env a path w' a')
    (sound : ∀ t ∈ a.tasks, t.Sound w) (calm : a.Calm)
    (unpanicked : ∀ path x p, (env.behaviour path ⟨x, .teardown⟩).outcome ≠ .panicked p)
    (admissible : ∀ x c, w.component? x = some c → c.isAdmissible = true) (q : Fault → Bool) :
    a'.Calm ∧ a'.faults.countP q + w.raised.countP q = a.faults.countP q + w'.raised.countP q := by
  induction h with
  | @act env a w' a' acts =>
    have sound := sound a (by simp [act_tasks acts])
    obtain ⟨calm', carried⟩ := (act_act sound.known acts).carried sound calm (unpanicked []) admissible q
    rw [act_faults acts]
    exact ⟨calm', by simpa using carried⟩
  | @merge env f o =>
    refine ⟨Outcome.afterHook_calm calm f, ?_⟩
    simp only [faults, Outcome.faults_afterHook calm f]
  | @delegated env f a path w' a' _ ih =>
    obtain ⟨calm', carried⟩ := ih sound calm unpanicked
    refine ⟨calm', ?_⟩
    simp only [faults, List.countP_append]
    omega
  | @close env all done =>
    constructor
    · intro p
      unfold FanOut.result
      cases all.errors.result <;> simp [Outcome.ofResult]
    · simp only [faults, slotsFaults_joined done, FanOut.result, Outcome.faults_ofResult, List.append_nil]
  | @start env all all' i started =>
    obtain ⟨job, waiting, slots, -, errors⟩ := start?_slot started
    obtain ⟨before, after, old, new⟩ := split_at waiting
    have calm : SlotsCalm all.slots := calm
    rw [old, slotsCalm_append] at calm
    constructor
    · simp only [Calm, slots, new, slotsCalm_append]
      exact calm
    · simp only [faults, slots, new, errors, slotsFaults_append]
      rw [old]
      simp [slotsFaults_append, slotsFaults]
  | @join env all i o _ slot =>
    obtain ⟨before, after, old, new⟩ := split_at slot
    have calm : SlotsCalm all.slots := calm
    rw [old, slotsCalm_append] at calm
    constructor
    · simp only [Activity.join, FanOut.join, Calm, new, slotsCalm_append]
      exact ⟨calm.1, calm.2.2⟩
    · have mine := calm.2.1
      have hold : (fanOut all).faults.countP q = all.errors.faults.countP q +
          ((slotsFaults before).countP q + (o.faults.countP q + (slotsFaults after).countP q)) := by
        simp only [faults]
        rw [old]
        simp only [slotsFaults_append, slotsFaults, faults, List.countP_append]
      rw [hold]
      simp only [Activity.join, FanOut.join, faults, new, slotsFaults_append, slotsFaults, List.countP_append]
      cases o with
      | panicked p => exact absurd rfl (mine p)
      | ok =>
        have none : (Outcome.ok.faults).countP q = 0 := rfl
        simp only [Outcome.releaseFailure?, Option.elim_none]
        omega
      | failed failure =>
        have all_of_it : (Outcome.failed failure).faults.countP q = failure.faults.countP q := rfl
        simp only [Outcome.releaseFailure?, Option.elim_some, Aggregate.faults_push, List.countP_append]
        omega
  | @child env all i a path w' a' slot _ ih =>
    obtain ⟨before, after, old, new⟩ := split_at slot
    have calm : SlotsCalm all.slots := calm
    rw [old, slotsCalm_append] at calm
    obtain ⟨calm', carried⟩ := ih (fun t mem => sound t (tasks_child slot t mem)) calm.2.1
      fun path => unpanicked (i :: path)
    constructor
    · simp only [FanOut.advance, Calm, new, slotsCalm_append]
      exact ⟨calm.1, calm', calm.2.2⟩
    · simp only [FanOut.advance, faults, new, slotsFaults_append, slotsFaults, List.countP_append]
      rw [old]
      simp only [slotsFaults_append, slotsFaults, List.countP_append]
      omega

/-- A call returns in a move of its own. -/
theorem Step.answers {env : Surroundings} {a a' : Activity} {path : Path} (h : Step w env a path w' a')
    (sound : ∀ t ∈ a.tasks, t.Sound w) : w'.answers = w.answers := by
  rcases step_cases h with ⟨world, -⟩ | ⟨t, t', before, after, acts, -, -, tasks, -⟩
  · rcases world with rfl | ⟨p, rfl⟩ <;> rfl
  · have does := act_act (sound t (by simp [tasks])).known acts
    cases does with
    | inspect => exact World.flatMap_inspect _ _ _ fun _ _ => rfl
    | @fire x u c => cases c <;> rfl
    | _ => rfl

end

end Activity

/-- What holds of a lifecycle on its way: no call panics, and what was raised is returned or still carried. -/
structure Machine.Carrying (m : Machine) : Prop where
  calm : ∀ c ∈ m.calls, c.2.Calm
  unpanicked : ∀ id p, (id, .panicked p) ∉ m.world.answers
  carried : ∀ q, m.world.returned.countP q + (m.calls.flatMap (·.2.faults)).countP q = m.world.raised.countP q

namespace Machine

variable {env : Environment} {m m' : Machine} {a : Move}

theorem Carrying.empty : Carrying {} where
  calm := by simp
  unpanicked := by simp [World.answers]
  carried := fun q => rfl

theorem request_calm {r : Request} (asks : (Move.call r).isSetup = true ∨ (Move.call r).isRelease = true) :
    r.activity.Calm ∧ r.activity.faults = [] := by
  cases r with
  | acquire | release => exact ⟨trivial, rfl⟩
  | report => simp [Move.isSetup, Move.isRelease] at asks
  | releaseAll xs config =>
    refine Activity.spread_calm ?_ _
    simpa [Move.isSetup, Move.isRelease] using asks

theorem Carrying.build (h : m.Carrying) {c : Component} (step : m.step? env (.build c) = some m') :
    m'.Carrying := by
  obtain ⟨w, made, rfl⟩ := Option.map_eq_some_iff.mp step
  obtain ⟨-, rfl⟩ := World.build?_eq_some.mp made
  have answers : ((m.world.add c).acquireAll (c.holds m.world.nodes.length)).answers = m.world.answers := by
    rw [World.answers, World.flatMap_acquireAll _ _ fun _ _ => rfl]
    simp [Entry.answers, World.answers, World.add]
  have raised : ((m.world.add c).acquireAll (c.holds m.world.nodes.length)).raised = m.world.raised := by
    rw [World.raised, World.flatMap_acquireAll _ _ fun _ _ => rfl]
    simp [Entry.raised, World.raised, World.add]
  refine ⟨h.calm, ?_, ?_⟩
  · intro id p
    rw [answers]
    exact h.unpanicked id p
  · intro q
    rw [World.returned, answers, raised]
    exact h.carried q

theorem Carrying.call (h : m.Carrying) {r : Request} (step : m.step? env (.call r) = some m')
    (asks : (Move.call r).isSetup = true ∨ (Move.call r).isRelease = true) : m'.Carrying := by
  obtain ⟨calm, none⟩ := request_calm asks
  simp only [step?, Option.ite_none_right_eq_some, Option.some.injEq] at step
  obtain ⟨-, rfl⟩ := step
  refine ⟨?_, h.unpanicked, ?_⟩
  · intro c mem
    rcases List.mem_append.mp mem with mem | mem
    · exact h.calm c mem
    · cases List.mem_singleton.mp mem
      exact calm
  · intro q
    simpa [none] using h.carried q

theorem Carrying.run (h : m.Carrying) (valid : m.Valid) {id : CallId} {path : Path}
    (step : m.step? env (.run id path) = some m')
    (unpanicked : ∀ path x p, ((env id).behaviour path ⟨x, .teardown⟩).outcome ≠ .panicked p)
    (admissible : ∀ x c, m.world.component? x = some c → c.isAdmissible = true) : m'.Carrying := by
  obtain ⟨a, a', before, after, found, moved, split, split', -, -⟩ := valid.run step
  have mem : (id, a) ∈ m.calls := by simp [split]
  have sound := valid.sound_call mem
  have step := Activity.step?_step moved
  have answers := step.answers sound
  refine ⟨?_, fun other p => answers ▸ h.unpanicked other p, ?_⟩
  · obtain ⟨calm, -⟩ := step.carried sound (h.calm _ mem) unpanicked admissible fun _ => true
    intro c here
    rw [split'] at here
    have all : ∀ c ∈ before ++ (id, a) :: after, c.2.Calm := split ▸ h.calm
    simp only [List.mem_append, List.mem_cons] at here
    rcases here with here | rfl | here
    · exact all c (by simp [here])
    · exact calm
    · exact all c (by simp [here])
  · intro q
    obtain ⟨-, carried⟩ := step.carried sound (h.calm _ mem) unpanicked admissible q
    have balance := h.carried q
    rw [split] at balance
    rw [split', World.returned, answers]
    rw [World.returned] at balance
    simp only [List.flatMap_append, List.flatMap_cons, List.countP_append] at balance ⊢
    omega

/-- A call that returns takes with it the faults that it has collected. -/
theorem Carrying.finish (h : m.Carrying) (valid : m.Valid) {id : CallId}
    (step : m.step? env (.finish id) = some m') : m'.Carrying := by
  simp only [step?, outcome?, Option.bind_eq_bind, Option.bind_eq_some_iff, Option.pure_def,
    Option.some.injEq] at step
  obtain ⟨o, ⟨a, found, ended⟩, rfl⟩ := step
  obtain ⟨before, after, split, without⟩ := valid.without found
  have a_ended : a = .ended o := by
    cases a <;> simp [Activity.outcome?] at ended
    rw [ended]
  subst a_ended
  have calm := h.calm (id, .ended o) (by simp [split])
  refine ⟨?_, ?_, ?_⟩
  · intro c mem
    rw [without] at mem
    refine h.calm c ?_
    rw [split]
    rcases List.mem_append.mp mem with mem | mem <;> simp [mem]
  · intro other p mem
    rcases List.mem_cons.mp mem with same | mem
    · cases same
      exact calm p rfl
    · exact h.unpanicked other p mem
  · intro q
    have balance := h.carried q
    rw [split, World.returned] at balance
    simp only [without, World.returned, World.answers_note, World.raised_note, Entry.answers, Entry.raised]
    simp only [List.flatMap_append, List.flatMap_cons, List.flatMap_nil, List.countP_append, Activity.faults,
      List.countP_nil] at balance ⊢
    omega

theorem Carrying.step (h : m.Carrying) (valid : m.Valid) (step : m.step? env a = some m')
    (asks : a.isSetup = true ∨ a.isRelease = true)
    (unpanicked : ∀ id path x p, ((env id).behaviour path ⟨x, .teardown⟩).outcome ≠ .panicked p)
    (admissible : ∀ x c, m.world.component? x = some c → c.isAdmissible = true) : m'.Carrying := by
  cases a with
  | build c => exact h.build step
  | call r => exact h.call step asks
  | run id path => exact h.run valid step (unpanicked id) admissible
  | openGate gate =>
    cases step
    exact ⟨h.calm, h.unpanicked, h.carried⟩
  | finish id => exact h.finish valid step
  | cancel id => simp [Move.isSetup, Move.isRelease] at asks

theorem Run.carrying {moves : List Move} (run : Run env m moves m') (valid : m.Valid) (h : m.Carrying)
    (asks : ∀ a ∈ moves, a.isSetup = true ∨ a.isRelease = true)
    (unpanicked : ∀ id path x p, ((env id).behaviour path ⟨x, .teardown⟩).outcome ≠ .panicked p)
    (admissible : ∀ x c, m'.world.component? x = some c → c.isAdmissible = true) : m'.Carrying := by
  induction run with
  | start => exact h
  | @next moves m₁ a m₂ run step ih =>
    have valid' := run.valid valid
    have admissible' : ∀ x c, m₁.world.component? x = some c → c.isAdmissible = true :=
      fun x c kind => admissible x c ((valid'.change step).component? kind)
    have before := ih (fun b mem => asks b (List.mem_append_left _ mem)) admissible'
    exact before.step valid' step (asks a (by simp)) unpanicked admissible'

end Machine

/-! ## What is raised -/

/-- The faults that the code of a node raises, if it ends so. -/
def Component.faults (outcome : Work → Outcome) (x : NodeId) : Component → List Fault
  | leaf | uncounted => Work.faults ⟨x, .teardown⟩ (outcome ⟨x, .teardown⟩)
  | hooked _ => Work.faults ⟨x, .hook⟩ (outcome ⟨x, .hook⟩)
  | sink _ | router _ _ => []

def Entry.failures : Entry → List Fault
  | finished k o => k.faults o
  | _ => []

def Entry.underflows : Entry → List NodeId
  | underflowed x => [x]
  | _ => []

namespace World

def failures (w : World) : List Fault := w.journal.flatMap Entry.failures

def underflows (w : World) : List NodeId := w.journal.flatMap Entry.underflows

@[simp] theorem failures_note (w : World) (e : Entry) : (w.note e).failures = e.failures ++ w.failures :=
  List.flatMap_cons

@[simp] theorem failures_setUsage (w : World) (x : NodeId) (u : Usage) : (w.setUsage x u).failures = w.failures :=
  rfl

theorem failures_inspect (w : World) (x : NodeId) (refs : Nat) : (w.inspect x refs).failures = w.failures :=
  flatMap_inspect _ _ _ fun _ _ => rfl

theorem count_underflowed (w : World) (x : NodeId) : w.count (.underflowed x) = w.underflows.count x := by
  apply w.countP_journal
  intro e
  cases e <;> simp [Entry.underflows, List.countP_singleton]

theorem countP_raised (w : World) (q : Fault → Bool) :
    w.raised.countP q = w.failures.countP q + w.underflows.countP fun _ => q .releaseUnderflow := by
  unfold raised failures underflows
  induction w.journal with
  | nil => rfl
  | cons e rest ih =>
    simp only [List.flatMap_cons, List.countP_append, ih]
    cases e <;> simp [Entry.raised, Entry.failures, Entry.underflows] <;> omega

end World

namespace Activity

/-- The faults that code which has begun is still to raise. -/
def undone : Activity → List Fault
  | work k _ o => k.faults o
  | _ => []

theorem undertaking_undone {env : Work → Behaviour} {outcome : Work → Outcome}
    (agree : ∀ k, (env k).outcome = outcome k) (c : Component) (x : NodeId) :
    (c.undertaking env x).tasks.flatMap undone = c.faults outcome x := by
  cases c with
  | leaf | uncounted | hooked => simp [Component.undertaking, tasks, undone, Component.faults, agree]
  | sink => rfl
  | router routes config => exact flatMap_tasks_spread_nil (fun _ _ => rfl) _ _

/-- The code of a node runs once when it is torn down. -/
theorem Act.failures {env : Work → Behaviour} {w w' : World} {t t' : Activity} {outcome : Work → Outcome}
    (h : Act env w t w' t') (agree : ∀ k, (env k).outcome = outcome k)
    (counted : ∀ x, w.component? x ≠ some .uncounted) (q : Fault → Bool) :
    (t'.tasks.flatMap undone).countP q + w'.failures.countP q + (w.ofTornDown (Component.faults outcome)).countP q =
      t.undone.countP q + w.failures.countP q + (w'.ofTornDown (Component.faults outcome)).countP q := by
  have same := h.component?
  cases h with
  | acquire counted | drop counted | dropLast counted =>
    rw [World.ofTornDown_congr same fun y => World.tornDown_setUsage counted rfl]
    simp [tasks, undone, Entry.failures]
  | inspect =>
    rw [World.ofTornDown_congr same fun y => World.tornDown_inspect .., World.failures_inspect]
    rfl
  | releaseUncounted kind => exact absurd kind (counted _)
  | @fire x u c found unfired kind =>
    have silent : (c.opening x).failures = [] := by cases c <;> rfl
    rw [undertaking_undone agree, World.countP_ofTornDown_fire q found unfired kind, World.failures_note,
      World.failures_note, silent]
    simp [undone, Entry.failures]
    omega
  | receive =>
    rw [World.ofTornDown_congr same fun _ => rfl]
    simp [tasks, undone, Work.faults, Entry.failures]
  | _ =>
    rw [World.ofTornDown_congr same fun _ => rfl]
    simp [tasks, undone, Entry.failures]

end Activity

namespace Machine

theorem starts_undone (a : Move) : a.starts.flatMap Activity.undone = [] := by
  cases a with
  | call r =>
    cases r with
    | acquire | release | report => rfl
    | releaseAll xs config => exact Activity.flatMap_tasks_spread_nil (fun _ _ => rfl) _ _
  | _ => rfl

theorem Run.failures {env : Environment} {moves : List Move} {m : Machine} {outcome : Work → Outcome}
    (run : Run env {} moves m) (agree : ∀ id path k, ((env id).behaviour path k).outcome = outcome k)
    (counted : ∀ x, m.world.component? x ≠ some .uncounted) (uncancelled : ∀ id, .cancel id ∉ moves)
    (q : Fault → Bool) :
    (m.tasks.flatMap Activity.undone).countP q + m.world.failures.countP q =
      (m.world.ofTornDown (Component.faults outcome)).countP q := by
  induction run with
  | start => rfl
  | @next moves m a m' run step ih =>
    have valid := run.valid valid_empty
    have change := valid.change step
    have counted' : ∀ x, m.world.component? x ≠ some .uncounted :=
      fun x kind => counted x (change.component? kind)
    have before := ih counted' fun id mem => uncancelled id (List.mem_append_left _ mem)
    have silent : ∀ e, Entry.isSilent e = true → Entry.failures e = [] := by
      intro e silence
      cases e with
      | acquired | acquiredLate | releasePanicked | returned | cancelled => rfl
      | _ => cases silence
    obtain ⟨lost, balance, kept⟩ := change.balance (f := fun _ => Activity.undone) valid q (fun _ => rfl)
      (fun _ _ => rfl) silent fun {id path _ _} act _ => act.failures (agree id path) counted' q
    have none_lost := kept fun id e => uncancelled id (by simp [e])
    rw [starts_undone, List.countP_nil] at balance
    change _ + m'.world.failures.countP q = _
    change _ + lost + m'.world.failures.countP q + _ = _ + 0 + m.world.failures.countP q + _ at balance
    omega

end Machine

namespace Lifecycle

variable {env : Environment} (l : Lifecycle env)

theorem carrying (unpanicked : ∀ id path x p, ((env id).behaviour path ⟨x, .teardown⟩).outcome ≠ .panicked p) :
    l.final.Carrying := by
  apply l.run.carrying Machine.valid_empty .empty _ unpanicked fun x c kind => (l.components kind).2
  intro a mem
  exact (List.mem_append.mp mem).imp (l.setting_up a) (l.releasing a)

theorem returned_perm_raised
    (unpanicked : ∀ id path x p, ((env id).behaviour path ⟨x, .teardown⟩).outcome ≠ .panicked p) :
    l.final.world.returned.Perm l.final.world.raised := by
  apply List.perm_iff_count.mpr
  intro f
  have carried := (l.carrying unpanicked).carried (· == f)
  rw [l.none_releasing] at carried
  exact carried

/-- All code ends in the same way in both, so both raise the same. -/
theorem Alike.raised_perm {l : Lifecycle env} {env' : Environment} {l' : Lifecycle env'} (alike : l.Alike l')
    {outcome : Work → Outcome} (agree : ∀ id path k, ((env id).behaviour path k).outcome = outcome k)
    (agree' : ∀ id path k, ((env' id).behaviour path k).outcome = outcome k) :
    l'.final.world.raised.Perm l.final.world.raised := by
  have failures : ∀ {env} (l : Lifecycle env), (∀ id path k, ((env id).behaviour path k).outcome = outcome k) → ∀ q,
      l.final.world.failures.countP q = (l.final.world.ofTornDown (Component.faults outcome)).countP q := by
    intro env l agree q
    have balance := l.run.failures agree l.counted l.uncancelled q
    rw [no_tasks l.none_releasing, List.flatMap_nil, List.countP_nil] at balance
    omega
  have torn : l'.final.world.ofTornDown (Component.faults outcome) =
      l.final.world.ofTornDown (Component.faults outcome) :=
    World.ofTornDown_congr alike.graph alike.tornDown_eq
  have underflows : l'.final.world.underflows.Perm l.final.world.underflows := by
    apply List.perm_iff_count.mpr
    intro x
    rw [← World.count_underflowed, ← World.count_underflowed]
    exact (alike.usage_eq x).2
  apply List.perm_iff_count.mpr
  intro f
  change List.countP (· == f) _ = List.countP (· == f) _
  rw [World.countP_raised, World.countP_raised, failures l agree, failures l' agree', torn, underflows.countP_eq]

/-- All calls together return what was raised, fault by fault, and none of them panics. Any other lifecycle of
the graph in which code ends in the same way returns the same. -/
theorem faults_conserved
    (unpanicked : ∀ id path x p, ((env id).behaviour path ⟨x, .teardown⟩).outcome ≠ .panicked p) :
    l.final.world.returned.Perm l.final.world.raised ∧
    (∀ id p, (id, .panicked p) ∉ l.final.world.answers) ∧
    ∀ env' (l' : Lifecycle env'), l.Alike l' →
      (∀ id id' path path' k, ((env' id').behaviour path' k).outcome = ((env id).behaviour path k).outcome) →
      l'.final.world.returned.Perm l.final.world.returned := by
  have conserves := l.returned_perm_raised unpanicked
  refine ⟨conserves, (l.carrying unpanicked).unpanicked, fun env' l' alike agree => ?_⟩
  have unpanicked' : ∀ id path x p, ((env' id).behaviour path ⟨x, .teardown⟩).outcome ≠ .panicked p := by
    intro id path x p
    rw [agree id id path path]
    exact unpanicked id path x p
  have outcomes : ∀ id path k, ((env id).behaviour path k).outcome = ((env' 0).behaviour [] k).outcome :=
    fun id path k => (agree id 0 path [] k).symm
  have outcomes' : ∀ id path k, ((env' id).behaviour path k).outcome = ((env' 0).behaviour [] k).outcome :=
    fun id path k => (agree 0 id [] path k).trans (agree 0 0 [] [] k).symm
  have raised := alike.raised_perm outcomes outcomes'
  exact (l'.returned_perm_raised unpanicked').trans (raised.trans conserves.symm)

theorem faults_conserved_overreleased :
    overreleased.final.world.returned.Perm
      [.releaseUnderflow, .failed "out of order", .failed ("shutdown hook panicked: " ++ "gone")] := by
  have unpanicked : ∀ id path x p, ((unlucky id).behaviour path ⟨x, .teardown⟩).outcome ≠ .panicked p := by
    intro id path x p
    simp [unlucky, Environment.uniform, Behaviour.outcome]
  exact (faults_conserved overreleased unpanicked).1.trans (.of_eq rfl)

end Lifecycle

end MetricPipeline
