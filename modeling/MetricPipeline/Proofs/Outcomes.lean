import MetricPipeline.Proofs.Teardown
import MetricPipeline.Proofs.Conservation

/-!
# What becomes of a failure

A wrapper ends with the faults of its hook and of the release below it, and a fan-out with those of its jobs in the
order in which they ended. Two things are lost on the way. A panic from below a wrapper unwinds and takes the failure
of the hook with it; and success is told from failure by the faults alone, so that an aggregate of no faults passes
for success wherever it is merged.
-/

namespace MetricPipeline

namespace Failure

theorem faults_eq_nil {failure : Failure} : failure.faults = [] ↔ failure = .aggregate {} := by
  cases failure with
  | single fault => simp [faults]
  | aggregate all =>
    cases all
    simp [faults]

theorem merge_eq (failures : List Failure) :
    merge failures =
      if failures.flatMap faults = [] then .ok () else .error (.aggregate ⟨failures.flatMap faults⟩) := by
  have all : Aggregate.ofList failures = ⟨failures.flatMap faults⟩ :=
    congrArg Aggregate.mk (Aggregate.faults_ofList failures)
  simp only [merge, all, Aggregate.result, Aggregate.isEmpty, List.isEmpty_iff]

theorem merge_eq_ok {failures : List Failure} : merge failures = .ok () ↔ ∀ f ∈ failures, f.faults = [] := by
  rw [merge_eq, ← List.flatMap_eq_nil_iff]
  split
  · simp [*]
  · simp [*]

end Failure

namespace Outcome

/-- Ended with nothing to report: in success, or in an aggregate of no faults. -/
def isQuiet (o : Outcome) : Bool := decide (o = ok ∨ o = failed (.aggregate {}))

theorem isQuiet_iff_release {o : Outcome} (text : Payload → String) :
    o.isQuiet = true ↔ ∀ f, o.releaseFailure? text = some f → f.faults = [] := by
  cases o <;> simp [isQuiet, releaseFailure?, Failure.faults_eq_nil]

theorem isQuiet_iff_hook {o : Outcome} : o.isQuiet = true ↔ ∀ f, o.hookFailure? = some f → f.faults = [] := by
  cases o <;> simp [isQuiet, hookFailure?, Failure.failed, Failure.faults_eq_nil]

theorem ofResult_eq_ok {r : Except Failure Unit} : ofResult r = ok ↔ r = .ok () := by
  cases r <;> simp [ofResult]

theorem afterHook_eq_ok {o : Outcome} {hookFailure : Option Failure} :
    o.afterHook hookFailure = ok ↔ (∀ f, hookFailure = some f → f.faults = []) ∧ o.isQuiet = true := by
  cases o with
  | ok | failed =>
    rw [afterHook, ofResult_eq_ok, Failure.merge_eq_ok]
    cases hookFailure <;> simp [isQuiet, Failure.faults_eq_nil]
  | panicked p => simp [afterHook, isQuiet]

/-- What a hook has failed with is reported first, unless the release below it panics. -/
theorem afterHook_failed {o : Outcome} (calm : ∀ p, o ≠ panicked p) {failure : Failure}
    (substantial : failure.faults ≠ []) :
    o.afterHook (some failure) = failed (.aggregate ⟨failure.faults ++ o.faults⟩) := by
  cases o with
  | ok | failed => simp [afterHook, Failure.merge_eq, ofResult, faults, substantial]
  | panicked p => exact absurd rfl (calm p)

end Outcome

/-- The jobs of a fan-out that were joined, and then those that queue up for it, with their outcomes and in the order
in which they ended. -/
structure FanOut.Gathered (text : Nat → Payload → String) (all : FanOut Activity)
    (joined waiting : List (Nat × Outcome)) : Prop where
  once : ((joined ++ waiting).map (·.1)).Nodup
  left : ∀ i, i ∈ joined.map (·.1) ↔ all.slots[i]? = some .joined
  ended : ∀ i o, (i, o) ∈ waiting ↔ all.slots[i]? = some (.started (.ended o))
  queue : all.queue = waiting.map (·.1)
  errors : all.errors = Aggregate.ofList (joined.filterMap fun d => d.2.releaseFailure? (text d.1))

namespace FanOut.Gathered

variable {text : Nat → Payload → String} {all all' : FanOut Activity} {joined waiting : List (Nat × Outcome)} {i : Nat}
  {a : Activity} {o : Outcome}

theorem spawned {free : Option Nat} {jobs : List Activity} :
    Gathered text { free, slots := jobs.map .waiting } [] [] where
  once := List.nodup_nil
  left i := by cases jobs[i]? <;> simp_all
  ended i o := by cases jobs[i]? <;> simp_all
  queue := rfl
  errors := rfl

/-- A job that has not ended goes on, or starts. -/
theorem set {slot slot' : Slot Activity} (gathered : all.Gathered text joined waiting)
    (found : all.slots[i]? = some slot) (slots : all'.slots = all.slots.set i slot')
    (queue : all'.queue = all.queue) (errors : all'.errors = all.errors) (idle : ∀ o, slot ≠ .started (.ended o))
    (idle' : ∀ o, slot' ≠ .started (.ended o)) (here : slot ≠ .joined) (here' : slot' ≠ .joined) :
    all'.Gathered text joined waiting where
  once := gathered.once
  left j := by
    rw [gathered.left, slots]
    by_cases same : i = j
    · subst same
      rw [getElem?_set_found found, found]
      simp [here, here']
    · rw [List.getElem?_set_ne same]
  ended j o := by
    rw [gathered.ended, slots]
    by_cases same : i = j
    · subst same
      rw [getElem?_set_found found, found]
      simp [idle o, idle' o]
    · rw [List.getElem?_set_ne same]
  queue := queue.trans gathered.queue
  errors := errors.trans gathered.errors

/-- A job that ends is the last that queues up. -/
theorem last (gathered : all.Gathered text joined waiting) (found : all.slots[i]? = some (.started a))
    (going : ∀ o, a ≠ .ended o) (o : Outcome) :
    (all.advance i (.ended o) true).Gathered text joined (waiting ++ [(i, o)]) where
  once := by
    have unjoined : i ∉ joined.map (·.1) := by simp [gathered.left, found]
    have unqueued : i ∉ waiting.map (·.1) := by
      intro mem
      obtain ⟨d, queued, rfl⟩ := List.mem_map.mp mem
      have ended := (gathered.ended d.1 d.2).mp queued
      rw [found] at ended
      exact going d.2 (by simpa using ended)
    have fresh : i ∉ (joined ++ waiting).map (·.1) := by
      rw [List.map_append, List.mem_append, not_or]
      exact ⟨unjoined, unqueued⟩
    rw [← List.append_assoc, List.map_append]
    exact List.Nodup.append gathered.once (List.nodup_singleton i) (by simpa using fresh)
  left j := by
    change _ ↔ (all.slots.set i (.started (.ended o)))[j]? = some .joined
    rw [gathered.left]
    by_cases same : i = j
    · subst same
      rw [getElem?_set_found found, found]
      simp
    · rw [List.getElem?_set_ne same]
  ended j o' := by
    change _ ↔ (all.slots.set i (.started (.ended o)))[j]? = some (.started (.ended o'))
    rw [List.mem_append, gathered.ended]
    by_cases same : i = j
    · subst same
      rw [getElem?_set_found found, found]
      simp [going, eq_comm]
    · rw [List.getElem?_set_ne same]
      simp [Ne.symm same]
  queue := by
    change all.queue ++ [i] = _
    rw [gathered.queue, List.map_append]
    rfl
  errors := gathered.errors

/-- The job that is joined is the first that queues up, and is the last that was joined from then on. -/
theorem join (gathered : all.Gathered text joined waiting) (next : all.next? = some i)
    (found : all.slots[i]? = some (.started (.ended o))) :
    ∃ rest, waiting = (i, o) :: rest ∧
      (all.join i (o.releaseFailure? (text i))).Gathered text (joined ++ [(i, o)]) rest := by
  obtain ⟨rest, rfl⟩ : ∃ rest, waiting = (i, o) :: rest := by
    rw [FanOut.next?, gathered.queue, List.head?_map] at next
    obtain ⟨⟨j, o'⟩, first, rfl⟩ := Option.map_eq_some_iff.mp next
    obtain ⟨rest, rfl⟩ := List.head?_eq_some_iff.mp first
    have ended := (gathered.ended j o').mp List.mem_cons_self
    rw [found] at ended
    cases ended
    exact ⟨rest, rfl⟩
  have once := gathered.once
  have apart : i ∉ rest.map (·.1) := by
    rw [List.map_append] at once
    exact (List.nodup_cons.mp once.of_append_right).1
  rw [List.append_cons] at once
  refine ⟨rest, rfl, once, fun j => ?_, fun j o' => ?_, ?_, ?_⟩
  · change _ ↔ (all.slots.set i .joined)[j]? = some .joined
    rw [List.map_append, List.mem_append, gathered.left]
    by_cases same : i = j
    · subst same
      rw [getElem?_set_found found]
      simp
    · rw [List.getElem?_set_ne same]
      simp [Ne.symm same]
  · change _ ↔ (all.slots.set i .joined)[j]? = some (.started (.ended o'))
    by_cases same : i = j
    · subst same
      rw [getElem?_set_found found]
      exact iff_of_false (fun mem => apart (List.mem_map_of_mem mem)) (by simp)
    · rw [List.getElem?_set_ne same, ← gathered.ended]
      simp [Ne.symm same]
  · change all.queue.tail = _
    rw [gathered.queue]
    rfl
  · change (o.releaseFailure? (text i)).elim all.errors all.errors.push = _
    rw [List.filterMap_append, Aggregate.ofList, List.foldl_append, ← Aggregate.ofList, ← gathered.errors]
    cases failure : o.releaseFailure? (text i) <;> simp [failure]

/-- When all jobs were joined, none is left to be. -/
theorem all_joined (gathered : all.Gathered text joined waiting) (all_ended : all.isEnded = true) :
    waiting = [] ∧ (joined.map (·.1)).Perm (List.range all.slots.length) := by
  have closed : ∀ (i : Nat) slot, all.slots[i]? = some slot → slot = .joined := by
    intro i slot found
    have ended := List.all_eq_true.mp all_ended _ (List.mem_of_getElem? found)
    cases slot with
    | joined => rfl
    | waiting | started => cases ended
  constructor
  · refine List.eq_nil_iff_forall_not_mem.mpr fun d mem => ?_
    cases closed _ _ ((gathered.ended d.1 d.2).mp mem)
  · have once : (joined.map (·.1)).Nodup := by
      have once := gathered.once
      rw [List.map_append] at once
      exact once.of_append_left
    apply (List.perm_ext_iff_of_nodup once List.nodup_range).mpr
    intro i
    rw [gathered.left, List.mem_range]
    refine ⟨fun found => (List.getElem?_eq_some_iff.mp found).1, fun inside => ?_⟩
    rw [List.getElem?_eq_getElem inside, closed i _ (List.getElem?_eq_getElem inside)]

/-- What has been merged is what the jobs have failed with. -/
theorem result (gathered : all.Gathered text joined waiting) :
    all.result = Failure.merge (joined.filterMap fun d => d.2.releaseFailure? (text d.1)) := by
  rw [FanOut.result, gathered.errors]
  rfl

end FanOut.Gathered

/-- What a step of a fan-out does to those of its jobs that have ended. -/
theorem Activity.Step.gathered {env : Surroundings} {w w' : World} {all : FanOut Activity} {a' : Activity}
    {path : Path} {joined waiting : List (Nat × Outcome)} (h : Step w env (fanOut all) path w' a')
    (staged : (fanOut all).Staged) (gathered : all.Gathered (fun i => env.panicText [i]) joined waiting) :
    (∃ all', a' = fanOut all' ∧ all'.slots.length = all.slots.length ∧
      ((∃ waiting', all'.Gathered (fun i => env.panicText [i]) joined waiting') ∨
        ∃ i o rest, all.slots[i]? = some (.started (ended o)) ∧
          all'.Gathered (fun i => env.panicText [i]) (joined ++ [(i, o)]) rest)) ∨
    all.isEnded = true ∧ a' = ended (.ofResult all.result) := by
  cases h with
  | act acts => cases acts
  | close all_ended => exact .inr ⟨all_ended, rfl⟩
  | start started =>
    obtain ⟨job, waits, slots, queue, errors⟩ := start?_slot started
    obtain ⟨h, x, rfl⟩ := staged_waiting staged waits
    have same := gathered.set waits slots queue errors (by simp) (by simp) (by simp) (by simp)
    exact .inl ⟨_, rfl, by rw [slots, List.length_set], .inl ⟨_, same⟩⟩
  | @join env _ i o next found =>
    obtain ⟨rest, -, more⟩ := gathered.join next found
    exact .inl ⟨_, rfl, List.length_set, .inr ⟨i, o, rest, found, more⟩⟩
  | @child env _ i a path w' a' found step =>
    refine .inl ⟨_, rfl, List.length_set, .inl ?_⟩
    cases last : a'.isEnded with
    | true =>
      obtain ⟨o, rfl⟩ := isEnded_eq_true.mp last
      exact ⟨_, gathered.last found step.going o⟩
    | false =>
      have going := step.going
      have still := isEnded_eq_false.mp last
      exact ⟨_, gathered.set found rfl rfl rfl (by simpa using going) (by simpa using still) (by simp) (by simp)⟩

namespace Machine

section

variable {env : Environment} {m m' m'' : Machine} {moves : List Move} {move : Move} {id : CallId} {p : Place} {n : Nat}
  {done : List (Nat × Outcome)}

/-- The jobs of the fan-out at a place that ended so. -/
def JobsEnded (env : Environment) (m : Machine) (moves : List Move) (m' : Machine) (id : CallId) (p : Place)
    (done : List (Nat × Outcome)) : Prop :=
  ∀ d ∈ done, Passes env m moves m' (·.At id (p ++ [.slot d.1]) (.ended d.2))

theorem JobsEnded.next (jobs : JobsEnded env m moves m' id p done) (step : m'.step? env move = some m'') :
    JobsEnded env m (moves ++ [move]) m'' id p done := fun d mem => (jobs d mem).next step

/-- What a fan-out of so many jobs has come to. -/
inductive Spreads (env : Environment) (m : Machine) (id : CallId) (p : Place) (n : Nat) (moves : List Move)
    (m' : Machine) : Activity → Prop
  | running {all : FanOut Activity} {joined waiting : List (Nat × Outcome)}
      (jobs : JobsEnded env m moves m' id p joined) (size : all.slots.length = n)
      (gathered : all.Gathered (fun i => (env id).panicText (p.path ++ [i])) joined waiting) :
      Spreads env m id p n moves m' (.fanOut all)
  | ended {done : List (Nat × Outcome)} (jobs : JobsEnded env m moves m' id p done)
      (perm : (done.map (·.1)).Perm (List.range n)) :
      Spreads env m id p n moves m' (.ended (.ofResult
        (Failure.merge (done.filterMap fun d => d.2.releaseFailure? ((env id).panicText (p.path ++ [d.1]))))))

theorem Spreads.start {config : Config} (admissible : config.isAdmissible = true) (rs : List Reference) :
    Spreads env m id p rs.length [] m (.spread config rs) := by
  unfold Activity.spread
  rw [FanOut.spawn?_eq, admissible]
  exact .running (fun d mem => by cases mem) (by simp) .spawned

theorem Spreads.stays {b : Activity} (spreads : Spreads env m id p n moves m' b) (step : m'.step? env move = some m'') :
    Spreads env m id p n (moves ++ [move]) m'' b := by
  cases spreads with
  | running jobs size gathered => exact .running (jobs.next step) size gathered
  | ended jobs perm => exact .ended (jobs.next step) perm

theorem Spreads.steps {b b' : Activity} {w' : World} {path : Path} (spreads : Spreads env m id p n moves m' b)
    (run : Run env m moves m') (valid : m.Valid) (step : m'.step? env move = some m'') (here : m'.At id p b)
    (own : Activity.Step m'.world ((env id).under p.path) b path w' b') :
    Spreads env m id p n (moves ++ [move]) m'' b' := by
  cases spreads with
  | ended => exact own.not_ended.elim
  | @running all joined waiting jobs size gathered =>
    obtain ⟨all', rfl, size', ⟨_, same⟩ | ⟨i, o, _, found, more⟩⟩ | ⟨all_ended, rfl⟩ :=
      own.gathered (here.staged (run.valid valid)) gathered
    · exact .running (jobs.next step) (size'.trans size) same
    · have jobs' : JobsEnded env m (moves ++ [move]) m'' id p (joined ++ [(i, o)]) := by
        intro d mem
        obtain before | last := List.mem_append.mp mem
        · exact jobs.next step d before
        · cases List.mem_singleton.mp last
          have job : m'.At id (p ++ [.slot i]) (.ended o) := here.append (.job found .here)
          exact (run.passes job).next step
      exact .running jobs' (size'.trans size) more
    · rw [gathered.result]
      exact .ended (jobs.next step) (size ▸ (gathered.all_joined all_ended).2)

/-- When a fan-out has ended, each of its jobs has, and its outcome is what their failures come to in the order in
which they ended. -/
theorem Run.spread_outcome {config : Config} {rs : List Reference} {o : Outcome} (run : Run env m moves m')
    (valid : m.Valid) (admissible : config.isAdmissible = true) (here : m.At id p (.spread config rs))
    (there : m'.At id p (.ended o)) :
    ∃ done : List (Nat × Outcome), (done.map (·.1)).Perm (List.range rs.length) ∧
      JobsEnded env m moves m' id p done ∧ o = .ofResult
        (Failure.merge (done.filterMap fun d => d.2.releaseFailure? ((env id).panicText (p.path ++ [d.1])))) := by
  cases run.follow (P := Spreads env m id p rs.length) valid here (.start admissible rs)
    (fun _ step _ spreads _ => spreads.stays step)
    (fun run step here own spreads => spreads.steps run valid step here own) there with
  | ended jobs perm => exact ⟨_, perm, jobs, rfl⟩

/-- What the teardown of a wrapper has come to, whose hook ends as given. -/
inductive Unwraps (env : Environment) (m : Machine) (id : CallId) (p : Place) (x : NodeId) (hook : Outcome)
    (moves : List Move) (m' : Machine) : Activity → Prop
  | hook {wait} : Unwraps env m id p x hook moves m' (.work ⟨x, .hook⟩ wait hook)
  | delegate {below} : Unwraps env m id p x hook moves m' (.delegate hook.hookFailure? below)
  | ended {o} (below : Passes env m moves m' (·.At id (p ++ [.below]) (.ended o))) :
      Unwraps env m id p x hook moves m' (.ended (o.afterHook hook.hookFailure?))

theorem Unwraps.stays {x : NodeId} {hook : Outcome} {b : Activity} (unwraps : Unwraps env m id p x hook moves m' b)
    (step : m'.step? env move = some m'') : Unwraps env m id p x hook (moves ++ [move]) m'' b := by
  cases unwraps with
  | hook => exact .hook
  | delegate => exact .delegate
  | ended below => exact .ended (below.next step)

theorem Unwraps.steps {x y : NodeId} {hook : Outcome} {b b' : Activity} {w' : World} {path : Path}
    (unwraps : Unwraps env m id p x hook moves m' b) (kind : m'.world.component? x = some (.hooked y))
    (run : Run env m moves m') (step : m'.step? env move = some m'') (here : m'.At id p b)
    (own : Activity.Step m'.world ((env id).under p.path) b path w' b') :
    Unwraps env m id p x hook (moves ++ [move]) m'' b' := by
  cases unwraps with
  | @hook wait =>
    cases own with
    | act acts =>
      have known : ∀ z, (Activity.work ⟨x, .hook⟩ wait hook).node? = some z →
          (m'.world.component? z).isSome = true := by
        rintro z ⟨⟩
        rw [kind]
        rfl
      cases Activity.act_act known acts with
      | resume => exact .hook
      | hookEnd | hookPanic => exact .delegate
      | workEnd other => exact absurd kind (other rfl _)
  | delegate =>
    cases own with
    | act acts => cases acts
    | delegated => exact .delegate
    | @merge env _ o =>
      have below : m'.At id (p ++ [.below]) (.ended o) := here.append (.delegated .here)
      exact .ended ((run.passes below).next step)
  | ended => exact own.not_ended.elim

end

end Machine

open Machine (Run Passes)

namespace Teardown

variable {env : Environment} {x y : NodeId} (t : Teardown env x) {o : Outcome}

/-- The release of the node below a torn down wrapper ended so. -/
def BelowEndedWith (o : Outcome) : Prop :=
  Passes env t.after t.later t.final (·.At t.call (t.place ++ [.below]) (.ended o))

/-- A wrapper's teardown ends as its hook and the release below it have ended. -/
theorem hooked_outcome (kind : t.final.world.component? x = some (.hooked y)) (ended : t.EndedWith o) :
    ∃ o', t.BelowEndedWith o' ∧
      o = o'.afterHook ((env t.call).behaviour t.place.path ⟨x, .hook⟩).outcome.hookFailure? := by
  obtain ⟨now, begins⟩ := t.begins kind
  obtain ⟨soon, rest, between, split, run, further, ended⟩ := ended
  let hook := ((env t.call).behaviour t.place.path ⟨x, .hook⟩).outcome
  cases run.follow (P := Machine.Unwraps env t.after t.call t.place x hook) t.valid begins
    .hook (fun _ step _ unwraps _ => unwraps.stays step)
    (fun run step here own unwraps => unwraps.steps (run.component? t.valid now) run step here own) ended with
  | ended below =>
    refine ⟨_, ?_, rfl⟩
    unfold BelowEndedWith
    rw [split]
    exact below.append further

end Teardown
namespace Machine

/-- A wrapper that is torn down was torn down by some release, which goes on until it ends or its call is dropped.
When it has ended, the faults that its hook failed with come first in the aggregate it returns, unless the release of
the node below it has panicked: then the release of the wrapper has panicked in the same way, and that is all. -/
theorem Run.hook_failure_kept {env : Environment} {moves : List Move} {m : Machine} {x y : NodeId}
    (run : Run env {} moves m) (kind : m.world.component? x = some (.hooked y))
    (torn : (m.world.usage x).tornDown = true) :
    ∃ t : Teardown env x, t.moves = moves ∧ t.final = m ∧
      ((∃ b, m.At t.call t.place b) ∨ .cancel t.call ∈ t.later ∨ ∃ o, t.EndedWith o) ∧
      ∀ failure, ((env t.call).behaviour t.place.path ⟨x, .hook⟩).outcome.hookFailure? = some failure →
        failure ≠ .aggregate {} → ∀ o, t.EndedWith o → ∃ o', t.BelowEndedWith o' ∧
          ((∀ p, o' ≠ .panicked p) → o = .failed (.aggregate ⟨failure.faults ++ o'.faults⟩)) ∧
          ∀ p, o' = .panicked p → o = .panicked p := by
  obtain ⟨t, same, rfl⟩ := run.teardown torn
  refine ⟨t, same, rfl, t.fate kind, fun failure failing substantial o ended => ?_⟩
  obtain ⟨o', below, rfl⟩ := t.hooked_outcome kind ended
  rw [failing]
  refine ⟨o', below, fun calm => ?_, fun p panicked => by rw [panicked, Outcome.afterHook]⟩
  exact Outcome.afterHook_failed calm (mt Failure.faults_eq_nil.mp substantial)

/-- A wrapper over a leaf is torn down. -/
def unwrapped : List Move :=
  [.build .leaf, .build (.hooked 0), .call (.acquire 1), .run 0 [], .run 0 [], .finish 0, .call (.release 1),
    .run 1 [], .run 1 [], .run 1 [], .run 1 [], .run 1 [], .run 1 [], .run 1 [], .finish 1]

theorem hook_failure_kept_unwrapped :
    ∃ t : Teardown Lifecycle.unlucky 1, t.moves = unwrapped ∧ ∃ o o', t.EndedWith o ∧ t.BelowEndedWith o' ∧
      ((∀ p, o' ≠ .panicked p) →
        o = .failed (.aggregate ⟨.failed ("shutdown hook panicked: " ++ "gone") :: o'.faults⟩)) := by
  obtain ⟨m, run, kind, torn, idle⟩ : ∃ m, Run Lifecycle.unlucky {} unwrapped m ∧
      m.world.component? 1 = some (.hooked 0) ∧ (m.world.usage 1).tornDown = true ∧ m.calls = [] :=
    ⟨_, .of_foldlM rfl, rfl, rfl, rfl⟩
  obtain ⟨t, same, rfl, -, kept⟩ := Run.hook_failure_kept run kind torn
  obtain ⟨o, ended⟩ := t.ends kind idle (by simp [same, unwrapped])
  obtain ⟨o', below, failed, -⟩ := kept _ rfl (by simp [Failure.failed]) o ended
  exact ⟨t, same, o, o', ended, below, failed⟩

end Machine

/-- Every teardown panics, and every hook fails. -/
def headlong : Environment := .uniform fun k =>
  match k.duty with
  | .teardown => { panic := some (.fixed "gone") }
  | .hook => { failure := some (.failed "not flushed") }
  | .report => {}

/-- A fan-out releases a wrapper over a leaf. -/
noncomputable def Teardown.overwhelmed : Teardown headlong 1 where
  earlier := [.build .leaf, .build (.hooked 0), .call (.acquire 1), .run 0 [], .run 0 [], .finish 0,
    .call (.releaseAll [1] {}), .run 1 [0], .run 1 [0]]
  before := _
  call := 1
  place := [.slot 0]
  after := _
  later := [.run 1 [0], .run 1 [0], .run 1 [0], .run 1 [0], .run 1 [0], .run 1 [0], .run 1 [], .finish 1]
  final := _
  first := .of_foldlM rfl
  fires := ⟨_, rfl, .job rfl .here⟩
  unset := rfl
  step := rfl
  set := rfl
  rest := .of_foldlM rfl

/-- The fan-out reports the panic, and no call what the hook has failed with. -/
theorem Teardown.overwhelmed_forgets_hook :
    overwhelmed.final.world.component? 1 = some (.hooked 0) ∧
      (overwhelmed.final.world.usage 1).tornDown = true ∧
      ((headlong overwhelmed.call).behaviour overwhelmed.place.path ⟨1, .hook⟩).outcome =
        .failed (.failed "not flushed") ∧
      (∀ id, .cancel id ∉ overwhelmed.moves) ∧ overwhelmed.EndedWith (.panicked (.fixed "gone")) ∧
      overwhelmed.final.world.answers =
        [(1, .failed (.aggregate ⟨[.releasePanicked (Payload.fixed "gone").taskText]⟩)), (0, .ok)] := by
  refine ⟨rfl, rfl, rfl, by simp [overwhelmed, moves], ?_, rfl⟩
  exact ⟨[.run 1 [0], .run 1 [0], .run 1 [0], .run 1 [0], .run 1 [0]], [.run 1 [0], .run 1 [], .finish 1], _, rfl,
    .of_foldlM rfl, .of_foldlM rfl, _, rfl, .job rfl .here⟩

/-- Success is told from failure by the faults alone: where failures are merged, where a fan-out has ended and where
a wrapper has been torn down, the outcome is success if and only if all that went before was, but that an aggregate of
no faults counts for success as well. -/
theorem Machine.Run.success_iff_quiet {env : Environment} {earlier : List Move} {m : Machine}
    (first : Run env {} earlier m) :
    (∀ failures, Failure.merge failures = .ok () ↔ ∀ f ∈ failures, f = .aggregate {}) ∧
    (∀ moves m' id p config rs o, Run env m moves m' → config.isAdmissible = true →
      m.At id p (.spread config rs) → m'.At id p (.ended o) →
      ∃ done : List (Nat × Outcome), (done.map (·.1)).Perm (List.range rs.length) ∧
        Machine.JobsEnded env m moves m' id p done ∧ (o = .ok ↔ ∀ d ∈ done, d.2.isQuiet = true)) ∧
    ∀ x y (t : Teardown env x) o, t.final.world.component? x = some (.hooked y) → t.EndedWith o →
      ∃ o', t.BelowEndedWith o' ∧
        (o = .ok ↔ ((env t.call).behaviour t.place.path ⟨x, .hook⟩).outcome.isQuiet = true ∧ o'.isQuiet = true) := by
  refine ⟨fun failures => ?_, ?_, ?_⟩
  · simp only [Failure.merge_eq_ok, Failure.faults_eq_nil]
  · intro moves m' id p config rs o run admissible here there
    obtain ⟨done, perm, jobs, rfl⟩ := run.spread_outcome (first.valid Machine.valid_empty) admissible here there
    refine ⟨done, perm, jobs, ?_⟩
    rw [Outcome.ofResult_eq_ok, Failure.merge_eq_ok]
    simp only [List.mem_filterMap]
    refine ⟨fun quiet d mem => (Outcome.isQuiet_iff_release _).mpr fun f failure => quiet f ⟨d, mem, failure⟩, ?_⟩
    rintro quiet f ⟨d, mem, failure⟩
    exact (Outcome.isQuiet_iff_release _).mp (quiet d mem) f failure
  · intro x y t o kind ended
    obtain ⟨o', below, rfl⟩ := t.hooked_outcome kind ended
    refine ⟨o', below, ?_⟩
    have own := Outcome.isQuiet_iff_hook (o := ((env t.call).behaviour t.place.path ⟨x, .hook⟩).outcome)
    rw [Outcome.afterHook_eq_ok, own]

/-- Every teardown fails, but with no fault. -/
def hollow : Environment := .uniform fun k =>
  match k.duty with
  | .teardown => { failure := some (.aggregate {}) }
  | .hook | .report => {}

/-- A wrapper over a leaf is torn down. -/
noncomputable def Teardown.hushed : Teardown hollow 1 where
  earlier := [.build .leaf, .build (.hooked 0), .call (.acquire 1), .run 0 [], .run 0 [], .finish 0,
    .call (.release 1), .run 1 []]
  before := _
  call := 1
  place := []
  after := _
  later := [.run 1 [], .run 1 [], .run 1 [], .run 1 [], .run 1 [], .finish 1]
  final := _
  first := .of_foldlM rfl
  fires := ⟨_, rfl, .here⟩
  unset := rfl
  step := rfl
  set := rfl
  rest := .of_foldlM rfl

/-- Two leaves are about to be released side by side, and are. -/
def paired : List Move :=
  [.build .leaf, .build .leaf, .call (.acquire 0), .run 0 [], .run 0 [], .call (.acquire 1), .run 1 [], .run 1 [],
    .call (.releaseAll [0, 1] ⟨2⟩)]

def sideBySide : List Move :=
  [.run 2 [0], .run 2 [1], .run 2 [1], .run 2 [0], .run 2 [0], .run 2 [1], .run 2 [1], .run 2 [0], .run 2 [1],
    .run 2 [0], .run 2 []]

theorem success_iff_quiet_side_by_side :
    (∃ o, Teardown.hushed.BelowEndedWith o ∧ o.isQuiet = true) ∧
      ∃ m m' done, Run hollow {} paired m ∧ Run hollow m sideBySide m' ∧ m'.At 2 [] (.ended .ok) ∧
        (done.map (·.1)).Perm [0, 1] ∧ Machine.JobsEnded hollow m sideBySide m' 2 [] done ∧
        ∀ d ∈ done, d.2.isQuiet = true := by
  obtain ⟨m, m', first, run, here, there⟩ : ∃ m m', Run hollow {} paired m ∧ Run hollow m sideBySide m' ∧
      m.At 2 [] (.spread ⟨2⟩ [(.outside, 0), (.outside, 1)]) ∧ m'.At 2 [] (.ended .ok) :=
    ⟨_, _, .of_foldlM rfl, .of_foldlM rfl, ⟨_, rfl, .here⟩, _, rfl, .here⟩
  have ended : Teardown.hushed.EndedWith .ok :=
    ⟨[.run 1 [], .run 1 [], .run 1 [], .run 1 [], .run 1 []], [.finish 1], _, rfl, .of_foldlM rfl, .of_foldlM rfl,
      _, rfl, .here⟩
  obtain ⟨-, fanOut, wrapper⟩ := Machine.Run.success_iff_quiet first
  obtain ⟨o, below, quiet⟩ := wrapper _ 0 Teardown.hushed .ok rfl ended
  obtain ⟨done, perm, jobs, quiets⟩ := fanOut _ _ _ _ _ _ _ run rfl here there
  exact ⟨⟨o, below, (quiet.mp rfl).2⟩, m, m', done, first, run, there, perm, jobs, quiets.mp rfl⟩

/-- The release below fails, and the wrapper reports success. -/
theorem Teardown.hushed_failure_passes :
    Failure.merge [.aggregate {}] = .ok () ∧ hushed.BelowEndedWith (.failed (.aggregate {})) ∧ hushed.EndedWith .ok ∧
      hushed.final.world.answers = [(1, .ok), (0, .ok)] := by
  refine ⟨rfl, ?_, ?_, rfl⟩
  · exact ⟨[.run 1 [], .run 1 [], .run 1 [], .run 1 []], [.run 1 [], .finish 1], _, rfl, .of_foldlM rfl,
      .of_foldlM rfl, _, rfl, .delegated .here⟩
  · exact ⟨[.run 1 [], .run 1 [], .run 1 [], .run 1 [], .run 1 []], [.finish 1], _, rfl, .of_foldlM rfl,
      .of_foldlM rfl, _, rfl, .here⟩

end MetricPipeline
