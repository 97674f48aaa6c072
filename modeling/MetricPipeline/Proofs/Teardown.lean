import MetricPipeline.Proofs.Place

/-!
# Teardowns

A node is torn down by one release, at one place of one call, and the guard alone says that it was. A `Teardown` is
a run seen from that place: up to the step that sets the guard, and on from there. Once the release has ended there,
the node has given back each of its references once (`Teardown.count_returned`), except that a router gives back
none of them if its fan-out is refused.
-/

namespace MetricPipeline

namespace Activity

/-- Only one task is next at the end of a path. -/
theorem At.place_unique {a t t' : Activity} {p q : Place} (h : At a p t) (h' : At a q t')
    (last : ∀ f below, t ≠ delegate f below) (last' : ∀ f below, t' ≠ delegate f below) (path : p.path = q.path) :
    p = q := by
  induction h generalizing q with
  | here =>
    cases h' with
    | here => rfl
    | delegated => exact absurd rfl (last _ _)
    | job => cases path
  | delegated _ ih =>
    cases h' with
    | here => exact absurd rfl (last' _ _)
    | delegated there => rw [ih there last path]
  | job running _ ih =>
    cases h' with
    | here => cases path
    | job running' there =>
      obtain ⟨same, rest⟩ := List.cons.inj path
      subst same
      rw [running] at running'
      cases running'
      rw [ih there last rest]

theorem At.tasks {a b : Activity} {p : Place} (h : At a p b) : ∀ t ∈ b.tasks, t ∈ a.tasks := by
  induction h with
  | here => exact fun _ mem => mem
  | delegated _ ih => exact ih
  | job running _ ih => exact fun t mem => tasks_child running t (ih t mem)

/-- What a task owes it releases, or passes on. -/
theorem Act.owed_or_released {env : Work → Behaviour} {w w' : World} {t t' : Activity} {r : Reference}
    (h : Act env w t w' t') (sound : t.Sound w) (owes : r ∈ owed w t) :
    r ∈ t'.tasks.flatMap (owed w) ∨ .released r.1 r.2 ∈ w'.journal := by
  cases h with
  | underflow | drop | dropLast | releaseUncounted =>
    cases List.mem_singleton.mp owes
    exact .inr (by simp)
  | resume => exact .inl (by simpa [tasks, owed_work] using owes)
  | hookEnd kind | hookPanic kind =>
    refine .inl ?_
    simpa [tasks, owed, World.holds, kind, Component.holds] using owes
  | workEnd other =>
    rw [owed_work] at owes
    split at owes
    · rename_i hook
      obtain ⟨below, kind⟩ := sound.2 hook
      exact absurd kind (other hook below)
    · cases owes
  | _ => cases owes

/-- What was to be released after some step still is, or has been. -/
theorem Step.owed_or_released {env : Surroundings} {w w' : World} {a a' : Activity} {path : Path} {r : Reference}
    (h : Step w env a path w' a') (sound : ∀ t ∈ a.tasks, t.Sound w) (owes : r ∈ a.tasks.flatMap (owed w)) :
    r ∈ a'.tasks.flatMap (owed w') ∨ .released r.1 r.2 ∈ w'.journal := by
  obtain ⟨world, tasks⟩ | ⟨t, t', before, after, acts, -, -, old, new⟩ := step_cases h
  · have same : w'.component? = w.component? := by
      obtain rfl | ⟨q, rfl⟩ := world <;> rfl
    rw [tasks, owed_congr same]
    exact .inl owes
  · have mine : t ∈ a.tasks := by simp [old]
    have act := act_act (sound t mine).known acts
    rw [new, owed_congr act.component?]
    rw [old] at owes
    simp only [List.flatMap_append, List.flatMap_cons, List.mem_append] at owes ⊢
    obtain owes | owes | owes := owes
    · exact .inl (.inl owes)
    · exact (act.owed_or_released (sound t mine) owes).imp_left fun still => .inr (.inl still)
    · exact .inl (.inr (.inr owes))

end Activity

/-- What has been relinquished is what its owner returns. -/
theorem World.mem_returns {w : World} {x : NodeId} {c : Component} {r : Reference} (kind : w.component? x = some c)
    (owner : r.1.owner? = some x) (relinquished : r ∈ w.relinquished) : r ∈ c.returns x := by
  obtain ⟨y, -, returned⟩ := List.mem_flatMap.mp relinquished
  have owner' := holds_owner ((w.ifTornDown_sublist y).subset returned)
  rw [owner] at owner'
  cases owner'
  unfold ifTornDown at returned
  rw [kind] at returned
  split at returned
  · exact returned
  · cases returned

namespace Machine

theorem At.sound {m : Machine} {id : CallId} {p : Place} {b : Activity} (h : m.At id p b) (valid : m.Valid) :
    ∀ t ∈ b.tasks, t.Sound m.world := by
  obtain ⟨a, found, here⟩ := h
  exact fun t mem => valid.sound_call (mem_calls found) t (here.tasks t mem)

/-- A reference is still to be given back by what is under way, or has been. -/
def GivesBack (r : Reference) (m : Machine) (b : Activity) : Prop :=
  r ∈ b.tasks.flatMap (Activity.owed m.world) ∨ .released r.1 r.2 ∈ m.world.journal

section

variable {env : Environment} {m m' : Machine} {move : Move} {id : CallId} {p : Place} {r : Reference} {b : Activity}

theorem GivesBack.stays (gives : GivesBack r m b) (valid : m.Valid) (step : m.step? env move = some m')
    (here : m.At id p b) : GivesBack r m' b := by
  have change := valid.change step
  refine gives.imp (fun owes => ?_) fun released => change.journal.subset released
  obtain ⟨t, task, owes⟩ := List.mem_flatMap.mp owes
  refine List.mem_flatMap.mpr ⟨t, task, ?_⟩
  rw [Activity.owed_mono (fun y d kind => change.component? kind) (here.sound valid t task)]
  exact owes

theorem GivesBack.steps {b' : Activity} {path : Path} (gives : GivesBack r m b) (valid : m.Valid)
    (step : m.step? env move = some m') (here : m.At id p b)
    (own : Activity.Step m.world ((env id).under p.path) b path m'.world b') : GivesBack r m' b' := by
  obtain owes | released := gives
  · exact own.owed_or_released (here.sound valid) owes
  · exact .inr ((valid.change step).journal.subset released)

end

/-- The step that sets a guard, and where it is taken. -/
theorem Run.guard_set_at {env : Environment} {moves : List Move} {m m' : Machine} {a : Move} {x : NodeId}
    (run : Run env {} moves m) (step : m.step? env a = some m') (unset : (m.world.usage x).tornDown = false)
    (set : (m'.world.usage x).tornDown = true) :
    ∃ id p c, a = .run id p.path ∧ m.At id p (.fire x) ∧ m.world.component? x = some c ∧
      m'.At id p (c.undertaking ((env id).behaviour p.path) x) := by
  have valid := run.valid valid_empty
  obtain ⟨id, path, -, rfl, -⟩ := run.guard_set step unset set
  cases valid.callChange step id with
  | stays apart => exact absurd rfl apart
  | steps old new moved =>
    obtain world | ⟨p, t, t', rfl, here, acts, there⟩ := moved.place
    · have same : m'.world.usage x = m.world.usage x := by
        obtain world | ⟨q, world⟩ := world
        · rw [world]
        · rw [world]
          rfl
      rw [same, unset] at set
      cases set
    · have sound := At.sound ⟨_, old, here⟩ valid t (by simp [Activity.act_tasks acts])
      obtain ⟨rfl, c, kind, rfl⟩ := (Activity.act_act sound.known acts).guard unset set
      exact ⟨id, p, c, rfl, ⟨_, old, here⟩, kind, _, new, there⟩

end Machine

open Machine (Run Passes)

/-- A run in which a release sets the guard of a node, and goes on with the teardown at the place where it stands. -/
structure Teardown (env : Environment) (x : NodeId) where
  earlier : List Move
  before : Machine
  call : CallId
  place : Place
  after : Machine
  later : List Move
  final : Machine
  first : Run env {} earlier before
  fires : before.At call place (.fire x)
  unset : (before.world.usage x).tornDown = false
  step : before.step? env (.run call place.path) = some after
  set : (after.world.usage x).tornDown = true
  rest : Run env after later final

namespace Teardown

variable {env : Environment} {x : NodeId} (t : Teardown env x) {c : Component} {o : Outcome}

def moves : List Move := t.earlier ++ .run t.call t.place.path :: t.later

/-- The release that tore the node down ended so, whatever has become of its call since. -/
def EndedWith (o : Outcome) : Prop := Passes env t.after t.later t.final (·.At t.call t.place (.ended o))

theorem run : Run env {} t.moves t.final := by
  have upTo := (t.first.next t.step).append t.rest
  rw [List.append_assoc] at upTo
  exact upTo

theorem valid : t.after.Valid := (t.first.next t.step).valid Machine.valid_empty

/-- From the guard the release goes on with the teardown. -/
theorem begins (kind : t.final.world.component? x = some c) :
    t.after.world.component? x = some c ∧
      t.after.At t.call t.place (c.undertaking ((env t.call).behaviour t.place.path) x) := by
  obtain ⟨id, p, d, same, fires, known, there⟩ := t.first.guard_set_at t.step t.unset t.set
  obtain ⟨rfl, path⟩ := Move.run.inj same
  obtain ⟨a, found, here⟩ := t.fires
  obtain ⟨a', found', here'⟩ := fires
  rw [found] at found'
  cases found'
  -- a path alone does not name a place, but the task that is next at its end is one
  cases here.place_unique here' (by simp) (by simp) path
  have now := ((t.first.valid Machine.valid_empty).change t.step).component? known
  have later := t.rest.component? t.valid now
  rw [kind] at later
  cases later
  exact ⟨now, there⟩

/-- The release is under way until it ends or its call is dropped. -/
theorem fate (kind : t.final.world.component? x = some c) :
    (∃ b, t.final.At t.call t.place b) ∨ .cancel t.call ∈ t.later ∨ ∃ o, t.EndedWith o :=
  t.rest.at_fate t.valid (t.begins kind).2

/-- When no call is left and none was dropped, the release has ended. -/
theorem ends (kind : t.final.world.component? x = some c) (idle : t.final.calls = [])
    (uncancelled : ∀ id, .cancel id ∉ t.moves) : ∃ o, t.EndedWith o := by
  obtain ⟨b, a, found, -⟩ | dropped | ended := t.fate kind
  · simp [Machine.activity?, idle] at found
  · exact absurd (by simp [moves, dropped]) (uncancelled t.call)
  · exact ended

/-- When the release has ended, whatever the node gives back has been released. -/
theorem returned (kind : t.final.world.component? x = some c) (ended : t.EndedWith o) {r : Reference}
    (mine : r ∈ c.returns x) : .released r.1 r.2 ∈ t.final.world.journal := by
  obtain ⟨now, begins⟩ := t.begins kind
  obtain ⟨soon, rest, between, split, run, further, ended⟩ := ended
  have start : Machine.GivesBack r t.after (c.undertaking ((env t.call).behaviour t.place.path) x) := by
    unfold Machine.GivesBack
    rw [Activity.undertaking_owed now]
    exact .inl mine
  have gives := run.follow (P := fun _ => Machine.GivesBack r) t.valid begins start
    (fun run step here gives _ => gives.stays (run.valid t.valid) step here)
    (fun run step here own gives => gives.steps (run.valid t.valid) step here own) ended
  obtain nothing | released := gives
  · cases nothing
  · exact (further.journal (run.valid t.valid)).subset released

/-- When the release has ended, the node has given back its references, each of them once, and nothing else. -/
theorem count_returned (kind : t.final.world.component? x = some c) (ended : t.EndedWith o) {r : Reference}
    (owner : r.1.owner? = some x) :
    t.final.world.count (.released r.1 r.2) = if r ∈ c.returns x then 1 else 0 := by
  have within : r.1 ≠ .outside := by
    intro outside
    rw [outside] at owner
    cases owner
  have counted : t.final.world.count (.released r.1 r.2) = t.final.world.given.count r := World.count_released ..
  have le := t.run.given_le_relinquished within
  rw [counted]
  split
  · rename_i mine
    have once := Machine.relinquished_le_one t.final.world r
    have given : 0 < t.final.world.given.count r :=
      List.count_pos_iff.mpr ((World.mem_given_iff _ r).mpr (t.returned kind ended mine))
    omega
  · rename_i other
    have none : t.final.world.relinquished.count r = 0 :=
      List.count_eq_zero.mpr fun mem => other (World.mem_returns kind owner mem)
    omega

end Teardown

/-- A node that is torn down was torn down by some release. -/
theorem Machine.Run.teardown {env : Environment} {moves : List Move} {m : Machine} {x : NodeId}
    (run : Run env {} moves m) (torn : (m.world.usage x).tornDown = true) :
    ∃ t : Teardown env x, t.moves = moves ∧ t.final = m := by
  have start : ¬(({} : Machine).world.usage x).tornDown = true := by simp [World.usage, World.usage?]
  obtain ⟨earlier, a, later, before, after, rfl, first, step, rest, unset, set⟩ :=
    run.turn (P := fun m => (m.world.usage x).tornDown = true) start torn
  obtain ⟨id, p, c, rfl, fires, -, -⟩ := first.guard_set_at step (Bool.eq_false_iff.mpr unset) set
  exact ⟨⟨earlier, before, id, p, after, later, m, first, fires, Bool.eq_false_iff.mpr unset, step, set, rest⟩,
    rfl, rfl⟩

theorem Component.mem_returns_router {x y : NodeId} {routes : Table NodeId} {config : Config} {key : String} :
    (.route x key, y) ∈ (Component.router routes config).returns x ↔
      config.isAdmissible = true ∧ routes.get? key = some y := by
  change (.route x key, y) ∈ (if config.isAdmissible then (Component.router routes config).holds x else []) ↔ _
  split
  · rename_i admissible
    simp [mem_holds_router, admissible]
  · rename_i refused
    simp [refused]

namespace Machine

/-- A router that is torn down was torn down by some release, which goes on until it ends or its call is dropped.
When it has ended, however it did, the router has released the node under each of its keys once and has released
nothing else, unless its limit is one that the fan-out refuses: then it has released nothing. -/
theorem Run.routes_released {env : Environment} {moves : List Move} {m : Machine} {x : NodeId}
    {routes : Table NodeId} {config : Config} (run : Run env {} moves m)
    (kind : m.world.component? x = some (.router routes config)) (torn : (m.world.usage x).tornDown = true) :
    ∃ t : Teardown env x, t.moves = moves ∧ t.final = m ∧
      ((∃ b, m.At t.call t.place b) ∨ .cancel t.call ∈ t.later ∨ ∃ o, t.EndedWith o) ∧
      ∀ o, t.EndedWith o → ∀ key y, m.world.count (.released (.route x key) y) =
        if config.isAdmissible = true ∧ routes.get? key = some y then 1 else 0 := by
  obtain ⟨t, same, rfl⟩ := run.teardown torn
  refine ⟨t, same, rfl, t.fate kind, fun o ended key y => ?_⟩
  rw [t.count_returned kind ended (r := (.route x key, y)) rfl]
  simp only [Component.mem_returns_router]

/-- One leaf panics and the other fails. -/
def faulty : Environment := .uniform fun k =>
  match k with
  | ⟨0, .teardown⟩ => { panic := some (.fixed "gone") }
  | ⟨1, .teardown⟩ => { failure := some (.failed "out of order") }
  | _ => {}

/-- A router over both is torn down, one release at a time. -/
def oneByOne : List Move :=
  [.build .leaf, .build .leaf, .build (.router (.ofList [("a", 0), ("b", 1)]) ⟨1⟩), .call (.acquire 2), .run 0 [],
    .run 0 [], .finish 0, .call (.release 2), .run 1 [], .run 1 [], .run 1 [0], .run 1 [0], .run 1 [0], .run 1 [0],
    .run 1 [0], .run 1 [1], .run 1 [1], .run 1 [1], .run 1 [1], .run 1 [1], .run 1 [], .finish 1]

theorem routes_released_one_by_one :
    ∃ m, Run faulty {} oneByOne m ∧ m.world.count (.released (.route 2 "a") 0) = 1 ∧
      m.world.count (.released (.route 2 "b") 1) = 1 ∧ m.world.count (.released (.route 2 "a") 1) = 0 := by
  obtain ⟨m, run, kind, torn, idle⟩ : ∃ m, Run faulty {} oneByOne m ∧
      m.world.component? 2 = some (.router (.ofList [("a", 0), ("b", 1)]) ⟨1⟩) ∧
      (m.world.usage 2).tornDown = true ∧ m.calls = [] := ⟨_, .of_foldlM rfl, rfl, rfl, rfl⟩
  obtain ⟨t, same, rfl, -, released⟩ := Run.routes_released run kind torn
  obtain ⟨o, ended⟩ := t.ends kind idle (by simp [same, oneByOne])
  have count := released o ended
  exact ⟨_, run, (count "a" 0).trans (by decide), (count "b" 1).trans (by decide), (count "a" 1).trans (by decide)⟩

end Machine

/-- A router whose limit is one too large is torn down. -/
noncomputable def Teardown.refused : Teardown (.uniform fun _ => {}) 1 where
  earlier := [.build .leaf, .build (.router (.ofList [("m", 0)]) ⟨FanOut.maxPermits + 1⟩), .call (.acquire 1),
    .run 0 [], .run 0 [], .finish 0, .call (.release 1), .run 1 []]
  before := _
  call := 1
  place := []
  after := _
  later := [.finish 1]
  final := _
  first := .of_foldlM rfl
  fires := ⟨_, rfl, .here⟩
  unset := rfl
  step := rfl
  set := rfl
  rest := .of_foldlM rfl

/-- It is not torn down again, and what it holds is never released. -/
theorem Teardown.refused_releases_nothing :
    refused.final.world.component? 1 = some (.router (.ofList [("m", 0)]) ⟨FanOut.maxPermits + 1⟩) ∧
      (refused.final.world.usage 1).tornDown = true ∧
      refused.EndedWith (.panicked (.composed FanOut.refusal)) ∧
      (∀ id, .cancel id ∉ refused.moves) ∧
      refused.final.world.count (.released (.route 1 "m") 0) = 0 :=
  ⟨rfl, rfl, ⟨[], [.finish 1], refused.after, rfl, .start, refused.rest, _, rfl, .here⟩, by simp [refused, moves], rfl⟩

end MetricPipeline
