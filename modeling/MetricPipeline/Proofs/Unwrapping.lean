import MetricPipeline.Proofs.Observation
import MetricPipeline.Proofs.Outcomes

/-!
# The releases of a wrapper

What one release of a wrapper writes, from its first step on. If it does not set the guard, that is all it does
(`Bypass`). If it does, the hook runs, the node below is released when the hook has finished, however it did, and the
faults of both are returned in this order (`Unwinding`, `Run.wrapper_released`).
-/

namespace MetricPipeline

namespace Outcome

/-- The faults of a hook that ended so: those it failed with, or one for a panic. -/
def hookFaults : Outcome → List Fault
  | ok => []
  | failed failure => failure.faults
  | panicked p => [.failed ("shutdown hook panicked: " ++ p.hookText)]

theorem hookFaults_eq (hook : Outcome) : hook.hookFaults = hook.hookFailure?.toList.flatMap Failure.faults := by
  cases hook <;> simp [hookFaults, hookFailure?, Failure.failed, Failure.faults]

/-- The faults of the hook come first, and no fault is success. -/
theorem afterHook_eq {hook o : Outcome} (calm : ∀ p, o ≠ panicked p) : o.afterHook hook.hookFailure? =
    if hook.hookFaults ++ o.faults = [] then ok else failed (.aggregate ⟨hook.hookFaults ++ o.faults⟩) := by
  rw [hookFaults_eq]
  cases o with
  | panicked p => exact absurd rfl (calm p)
  | ok =>
    rw [afterHook, Failure.merge_eq, faults, List.append_nil]
    split <;> rfl
  | failed failure =>
    rw [afterHook, Failure.merge_eq, faults, List.flatMap_append, List.flatMap_singleton]
    split <;> rfl

end Outcome

/-- A release of a node that has not set the guard, and all that it has written. -/
inductive Bypass (h : Holder) (x : NodeId) : Activity → List Entry → Prop
  | begins : Bypass h x (.release h x) []
  | underflow : Bypass h x (.ended (.failed (.single .releaseUnderflow))) [.underflowed x, .released h x]
  | more {left} : Bypass h x (.ended .ok) [.dropped x left, .released h x]
  | last : Bypass h x (.fire x) [.dropped x 0, .released h x]
  | late : Bypass h x (.ended .ok) [.releasedLate x, .dropped x 0, .released h x]

/-- The node below a wrapper was released by it, and its hook had finished before. -/
def AfterHook (x y : NodeId) (hook : Outcome) (entries : List Entry) : Prop :=
  ∃ later earlier, entries = later ++ .released (.wrapper x) y :: earlier ∧ .finished ⟨x, .hook⟩ hook ∈ earlier

/-- How far the release has come that tears down a wrapper, whose hook ends so, and what it has written. -/
inductive Unwinding (x y : NodeId) (hook : Outcome) : Activity → List Entry → Prop
  | hook {wait entries} (untouched : .released (.wrapper x) y ∉ entries) :
      Unwinding x y hook (.work ⟨x, .hook⟩ wait hook) entries
  | finished {entries} (finished : .finished ⟨x, .hook⟩ hook ∈ entries) (untouched : .released (.wrapper x) y ∉ entries) :
      Unwinding x y hook (.delegate hook.hookFailure? (.release (.wrapper x) y)) entries
  | below {b entries} (after : AfterHook x y hook entries) : Unwinding x y hook (.delegate hook.hookFailure? b) entries
  | ended {o entries} (after : AfterHook x y hook entries) : Unwinding x y hook (.ended o) entries

theorem AfterHook.append {x y : NodeId} {hook : Outcome} {entries : List Entry} (after : AfterHook x y hook entries)
    (new : List Entry) : AfterHook x y hook (new ++ entries) := by
  obtain ⟨later, earlier, rfl, finished⟩ := after
  exact ⟨new ++ later, earlier, by simp, finished⟩

section

variable {env : Work → Behaviour} {w w' : World} {b b' : Activity} {path : Path} {x y : NodeId} {holder : Holder}
  {hook : Outcome} {entries new : List Entry}

/-- What is written in a step is known from the journal. -/
theorem new_eq {old written : List Entry} (longer : written ++ old = new ++ old) : new = written :=
  (List.append_cancel_right longer).symm

theorem Activity.Act.released {t' : Activity} (h : Activity.Act env w (.release holder y) w' t') :
    ∃ more, w'.journal = more ++ .released holder y :: w.journal := by
  cases h with
  | underflow | drop | dropLast | releaseUncounted => exact ⟨[_], rfl⟩

/-- A release that has not set the guard has still not done so after a step, or has just set it and begun the hook. -/
theorem Bypass.steps {env : Surroundings} (bypass : Bypass holder x b entries)
    (kind : w.component? x = some (.hooked y)) (own : Activity.Step w env b path w' b')
    (journal : w'.journal = new ++ w.journal) :
    Bypass holder x b' (new ++ entries) ∨
      new ++ entries = [.began ⟨x, .hook⟩, .tornDown x, .dropped x 0, .released holder x] ∧
        b' = .work ⟨x, .hook⟩ (env.behaviour [] ⟨x, .hook⟩).wait (env.behaviour [] ⟨x, .hook⟩).outcome := by
  have known : ∀ z, b.node? = some z → (w.component? z).isSome = true := by
    cases bypass with
    | begins | last =>
      rintro z ⟨⟩
      rw [kind]
      rfl
    | underflow | more | late => exact own.not_ended.elim
  cases bypass with
  | underflow | more | late => exact own.not_ended.elim
  | begins =>
    cases own with
    | act acts =>
      cases Activity.act_act known acts with
      | underflow =>
        obtain rfl : new = [.underflowed x, .released holder x] := new_eq journal
        exact .inl .underflow
      | drop =>
        obtain rfl : new = [_, .released holder x] := new_eq journal
        exact .inl .more
      | dropLast =>
        obtain rfl : new = [.dropped x 0, .released holder x] := new_eq journal
        exact .inl .last
      | releaseUncounted other =>
        rw [kind] at other
        cases other
  | last =>
    cases own with
    | act acts =>
      cases Activity.act_act known acts with
      | late =>
        obtain rfl : new = [.releasedLate x] := new_eq journal
        exact .inl .late
      | fire _ _ kind' =>
        rw [kind] at kind'
        cases kind'
        obtain rfl : new = [.began ⟨x, .hook⟩, .tornDown x] := new_eq journal
        exact .inr ⟨rfl, rfl⟩

/-- The hook finishes before the node below is released. -/
theorem Unwinding.steps {env : Surroundings} (unwinding : Unwinding x y hook b entries)
    (kind : w.component? x = some (.hooked y)) (sound : ∀ t ∈ b.tasks, t.Sound w)
    (own : Activity.Step w env b path w' b') (journal : w'.journal = new ++ w.journal) :
    Unwinding x y hook b' (new ++ entries) := by
  cases unwinding with
  | ended => exact own.not_ended.elim
  | hook untouched =>
    cases own with
    | act acts =>
      cases Activity.act_act (sound _ List.mem_cons_self).known acts with
      | resume =>
        obtain rfl : new = [.resumed ⟨x, .hook⟩] := new_eq journal
        exact .hook (by simp [untouched])
      | hookEnd kind' =>
        rw [kind] at kind'
        cases kind'
        obtain rfl : new = [.finished ⟨x, .hook⟩ hook] := new_eq journal
        exact .finished (by simp) (by simp [untouched])
      | @hookPanic _ _ q kind' =>
        rw [kind] at kind'
        cases kind'
        obtain rfl : new = [.hookPanicked x q, .finished ⟨x, .hook⟩ (.panicked q)] := new_eq journal
        exact .finished (by simp) (by simp [untouched])
      | workEnd other => exact absurd kind (other rfl y)
  | finished finished =>
    cases own with
    | act acts => cases acts
    | delegated step =>
      cases step with
      | act acts =>
        obtain ⟨more, longer⟩ := (Activity.act_act (sound _ List.mem_cons_self).known acts).released
        obtain rfl : new = more ++ [.released (.wrapper x) y] := new_eq (by rw [← journal, longer]; simp)
        exact .below ⟨more, entries, by simp, finished⟩
  | below after =>
    cases own with
    | act acts => cases acts
    | merge => exact .ended (after.append new)
    | delegated => exact .below (after.append new)

end

namespace Machine

variable {env : Environment} {m m' : Machine} {moves : List Move} {id : CallId} {p : Place} {x y : NodeId}
  {holder : Holder} {b : Activity}

/-- What a release of a wrapper has come to: it has not set the guard, or it tears the wrapper down. -/
inductive Unwrap (env : Environment) (m : Machine) (id : CallId) (p : Place) (holder : Holder) (x y : NodeId)
    (moves : List Move) (entries : List Entry) (m' : Machine) (b : Activity) : Prop
  | bypass (bypass : Bypass holder x b entries)
  | teardown (torn : .tornDown x ∈ entries) (began : .began ⟨x, .hook⟩ ∈ entries)
      (unwinding : Unwinding x y ((env id).behaviour p.path ⟨x, .hook⟩).outcome b entries)
      (unwraps : Unwraps env m id p x ((env id).behaviour p.path ⟨x, .hook⟩).outcome moves m' b)

theorem Run.unwrap {earlier : List Move} (first : Run env {} earlier m)
    (kind : m.world.component? x = some (.hooked y)) (here : m.At id p (.release holder x))
    (run : Run env m moves m') (there : m'.At id p b) :
    Unwrap env m id p holder x y moves (told env id p m moves) m' b := by
  have valid := first.valid valid_empty
  -- Entries about the node below cannot be mistaken for those about the wrapper: it was made before.
  have older : y ≠ x := Nat.ne_of_lt (valid.acyclic x _ kind (.wrapper x, y) (List.mem_singleton_self _))
  refine run.observe (P := fun moves _ entries m' b => Unwrap env m id p holder x y moves entries m' b) valid here
    (.bypass .begins) (fun step unwrap => ?_) (fun run step here own journal unwrap => ?_) there
  · cases unwrap with
    | bypass bypass => exact .bypass bypass
    | teardown torn began unwinding unwraps => exact .teardown torn began unwinding (unwraps.stays step)
  · have kind := run.component? valid kind
    cases unwrap with
    | bypass bypass =>
      obtain bypass | ⟨written, rfl⟩ := bypass.steps kind own journal
      · exact .bypass bypass
      · rw [written, Surroundings.behaviour_under, List.append_nil]
        exact .teardown (by simp) (by simp) (.hook (by simp [older])) .hook
    | teardown torn began unwinding unwraps =>
      exact .teardown (List.mem_append_right _ torn) (List.mem_append_right _ began)
        (unwinding.steps kind (here.sound (run.valid valid)) own journal) (unwraps.steps kind run step here own)

/-- When the hook has finished, the node below can be released at once. -/
theorem Valid.releases_below {f : Option Failure} (valid : m.Valid) (env : Environment)
    (here : m.At id p (.delegate f (.release holder y))) :
    ∃ m', m.step? env (.run id p.path) = some m' ∧ .released holder y ∈ m'.world.journal := by
  have known := (here.sound valid (.release holder y) List.mem_cons_self).known
  obtain ⟨s, acts⟩ : ∃ s, Activity.act (((env id).under p.path).behaviour []) m.world (.release holder y) = some s :=
    ⟨_, rfl⟩
  obtain ⟨more, journal⟩ := (Activity.act_act known acts).released
  obtain ⟨m', step, world, -⟩ := valid.step_at env here (.delegated (.act acts))
  exact ⟨m', by simpa using step, by rw [world, journal]; simp⟩

/-- When the release below a wrapper has ended, that of the wrapper can end at once. -/
theorem Valid.merges {f : Option Failure} {o : Outcome} (valid : m.Valid) (env : Environment)
    (here : m.At id p (.delegate f (.ended o))) :
    ∃ m', m.step? env (.run id p.path) = some m' ∧ m'.At id p (.ended (o.afterHook f)) := by
  obtain ⟨m', step, -, now⟩ := valid.step_at env here .merge
  exact ⟨m', by simpa using step, now⟩

/-- A release of a wrapper goes on until it ends or its call is dropped. One that does not set the guard touches neither
the hook nor the node below. The one that does runs the hook, which is run by no other, and goes on when the hook has
finished, however it did, to release the node below, which is released by the wrapper just once. When that has ended,
it ends with the faults of both, those of the hook first, and in success if there are none; only a panic from below
goes through. -/
theorem Run.wrapper_released {earlier : List Move} {hook : Outcome} (first : Run env {} earlier m)
    (kind : m.world.component? x = some (.hooked y)) (here : m.At id p (.release holder x))
    (run : Run env m moves m') (ends : ((env id).behaviour p.path ⟨x, .hook⟩).outcome = hook) :
    ((∃ b, m'.At id p b) ∨ .cancel id ∈ moves ∨ ∃ o, Passes env m moves m' (·.At id p (.ended o))) ∧
    ∀ b, m'.At id p b →
      (.tornDown x ∉ told env id p m moves → Bypass holder x b (told env id p m moves)) ∧
      (.tornDown x ∈ told env id p m moves →
        m'.world.count (.began ⟨x, .hook⟩) = 1 ∧ .began ⟨x, .hook⟩ ∈ told env id p m moves ∧
        Unwinding x y hook b (told env id p m moves) ∧ m'.world.count (.released (.wrapper x) y) ≤ 1 ∧
        (b = .delegate hook.hookFailure? (.release (.wrapper x) y) →
          ∃ m'', m'.step? env (.run id p.path) = some m'' ∧ .released (.wrapper x) y ∈ m''.world.journal) ∧
        (∀ o', b = .delegate hook.hookFailure? (.ended o') →
          ∃ m'', m'.step? env (.run id p.path) = some m'' ∧ m''.At id p (.ended (o'.afterHook hook.hookFailure?))) ∧
        ∀ o, b = .ended o → m'.world.count (.released (.wrapper x) y) = 1 ∧
          ∃ o', Passes env m moves m' (·.At id (p ++ [.below]) (.ended o')) ∧
            (∀ q, o' = .panicked q → o = .panicked q) ∧
            ((∀ q, o' ≠ .panicked q) → o = if hook.hookFaults ++ o'.faults = [] then .ok
              else .failed (.aggregate ⟨hook.hookFaults ++ o'.faults⟩))) := by
  have valid := first.valid valid_empty
  subst ends
  refine ⟨run.at_fate valid here, fun b there => ?_⟩
  have written : ∀ e ∈ told env id p m moves, e ∈ m'.world.journal := run.told_subset valid
  have valid' := run.valid valid
  have kind' := run.component? valid kind
  have released_le := (first.append run).count_released_le (r := (.wrapper x, y)) (x := x) (by
    simp [World.holds, kind', Component.holds])
  have unwrap := first.unwrap kind here run there
  generalize told env id p m moves = entries at written unwrap ⊢
  cases unwrap with
  | bypass bypass =>
    refine ⟨fun _ => bypass, fun torn => ?_⟩
    cases bypass <;> simp at torn
  | teardown torn began unwinding unwraps =>
    refine ⟨fun untorn => absurd torn untorn, fun _ => ⟨?_, began, unwinding, released_le, ?_, ?_, ?_⟩⟩
    · have once := ((first.append run).count_opening_le kind' rfl).2
      have some_hook : 0 < m'.world.count (.began ⟨x, .hook⟩) := List.count_pos_iff.mpr (written _ began)
      exact Nat.le_antisymm once some_hook
    · rintro rfl
      exact valid'.releases_below env there
    · rintro o' rfl
      exact valid'.merges env there
    · rintro o rfl
      cases unwinding with
      | ended after =>
        cases unwraps with
        | @ended o' below =>
          obtain ⟨later, earlier, split, -⟩ := after
          have some_release : 0 < m'.world.count (.released (.wrapper x) y) :=
            List.count_pos_iff.mpr (written _ (by simp [split]))
          refine ⟨Nat.le_antisymm released_le some_release, o', below, ?_, Outcome.afterHook_eq⟩
          rintro q rfl
          rfl

/-- The hook of a wrapper panics, and the teardown of the leaf below fails in two ways at once. -/
def ruinous : Environment := .uniform fun k =>
  match k.duty with
  | .hook => { panic := some (.composed "gone") }
  | .teardown => { failure := some (.aggregate ⟨[.failed "disk", .failed "socket"]⟩) }
  | .report => {}

/-- A wrapper that was acquired twice is about to be released twice. -/
def twiceAcquired : List Move :=
  [.build .leaf, .build (.hooked 0), .call (.acquire 1), .run 0 [], .run 0 [], .call (.acquire 1), .run 1 [],
    .run 1 [], .call (.release 1), .call (.release 1)]

def twiceReleased : List Move :=
  [.run 3 [], .run 2 [], .run 2 [], .run 2 [], .run 2 [], .run 2 [], .run 2 [], .run 2 []]

theorem wrapper_released_twice :
    ∃ m m', Run ruinous {} twiceAcquired m ∧ Run ruinous m twiceReleased m' ∧
      m.world.component? 1 = some (.hooked 0) ∧ m.At 2 [] (.release .outside 1) ∧ m.At 3 [] (.release .outside 1) ∧
      Bypass .outside 1 (.ended .ok) (told ruinous 3 [] m twiceReleased) ∧
      m'.At 2 [] (.ended (.failed (.aggregate
        ⟨[.failed ("shutdown hook panicked: " ++ "gone"), .failed "disk", .failed "socket"]⟩))) ∧
      m'.world.count (.began ⟨1, .hook⟩) = 1 ∧ m'.world.count (.released (.wrapper 1) 0) = 1 := by
  obtain ⟨m, m', first, run, kind, last, one, there, there', torn, untorn⟩ :
      ∃ m m', Run ruinous {} twiceAcquired m ∧ Run ruinous m twiceReleased m' ∧
        m.world.component? 1 = some (.hooked 0) ∧ m.At 2 [] (.release .outside 1) ∧
        m.At 3 [] (.release .outside 1) ∧
        m'.At 2 [] (.ended (.failed (.aggregate
          ⟨[.failed ("shutdown hook panicked: " ++ "gone"), .failed "disk", .failed "socket"]⟩))) ∧
        m'.At 3 [] (.ended .ok) ∧ .tornDown 1 ∈ told ruinous 2 [] m twiceReleased ∧
        .tornDown 1 ∉ told ruinous 3 [] m twiceReleased :=
    ⟨_, _, .of_foldlM rfl, .of_foldlM rfl, rfl, ⟨_, rfl, .here⟩, ⟨_, rfl, .here⟩, ⟨_, rfl, .here⟩, ⟨_, rfl, .here⟩,
      by decide, by decide⟩
  obtain ⟨bypass, -⟩ := (Run.wrapper_released first kind one run rfl).2 _ there'
  obtain ⟨-, teardown⟩ := (Run.wrapper_released first kind last run rfl).2 _ there
  obtain ⟨hook, -, -, -, -, -, ended⟩ := teardown torn
  exact ⟨m, m', first, run, kind, last, one, bypass untorn, there, hook, (ended _ rfl).1⟩

end Machine
end MetricPipeline
