import MetricPipeline.Proofs.Account

/-!
# The guard of a node

The decrement and the guard are two steps, and anything may happen between them. `Machine.TookLast` says that
a call itself took the last reference and has not moved on since; only such a call can set the guard
(`Run.tookLast`, `Run.guard_set`), which then stays set (`Run.guard_stays`). With the account of the node this
gives what counter and guard say of the calls, in every interleaving.
-/

namespace MetricPipeline

namespace Activity

/-- No release of a fan-out has begun when it is made. -/
theorem spread_task? (config : Config) (rs : List Reference) (path : Path) (x : NodeId) :
    (spread config rs).task? path ≠ some (.fire x) := by
  unfold spread
  rw [FanOut.spawn?_eq]
  cases config.isAdmissible with
  | false => cases path <;> simp [task?]
  | true =>
    cases path with
    | nil => simp [task?]
    | cons i path =>
      intro here
      obtain ⟨a, slot, -⟩ := slotTask?_eq_some.mp here
      rw [List.getElem?_map] at slot
      obtain ⟨job, -, running⟩ := Option.map_eq_some_iff.mp slot
      cases running

theorem undertaking_task? (env : Work → Behaviour) (c : Component) (x y : NodeId) (path : Path) :
    (c.undertaking env x).task? path ≠ some (.fire y) := by
  cases c with
  | leaf | uncounted | sink | hooked => cases path <;> simp [Component.undertaking, task?]
  | router routes config => exact spread_task? _ _ _ _

/-- Only the release that took the last reference goes on to the guard. -/
theorem Act.fire_origin {env : Work → Behaviour} {w w' : World} {t t' : Activity} {path : Path} {x : NodeId}
    (h : Act env w t w' t') (here : t'.task? path = some (.fire x)) :
    path = [] ∧ ∃ holder u, t = .release holder x ∧ w.usage? x = some u ∧ u.refs = 1 ∧
      w'.usage? x = some { u with refs := 0 } := by
  cases h with
  | dropLast counted last =>
    cases path with
    | cons => cases here
    | nil =>
      cases here
      refine ⟨rfl, _, _, rfl, counted, last, ?_⟩
      simp [World.usage?_setUsage, counted]
  | fire | releaseUncounted => exact absurd here (undertaking_task? _ _ _ _ _)
  | _ => cases path <;> cases here

/-- A task about to set the guard was so before the step, or took the last reference in it. -/
theorem Step.fire_origin {env : Surroundings} {w w' : World} {a a' : Activity} {path place : Path}
    {x : NodeId} (h : Step w env a path w' a') (staged : a.Staged) (sound : ∀ t ∈ a.tasks, t.Sound w)
    (here : a'.task? place = some (.fire x)) :
    (path ≠ place ∧ a.task? place = some (.fire x)) ∨
    (path = place ∧ ∃ holder u, a.task? place = some (.release holder x) ∧ w.usage? x = some u ∧
      u.refs = 1 ∧ w'.usage? x = some { u with refs := 0 }) := by
  induction h generalizing place with
  | @act env a w' a' acts =>
    have does := act_act (sound a (by simp [act_tasks acts])).known acts
    obtain ⟨rfl, holder, u, rfl, counted, last, left⟩ := does.fire_origin here
    exact .inr ⟨rfl, holder, u, rfl, counted, last, left⟩
  | merge => cases place <;> cases here
  | delegated _ ih => exact ih staged sound here
  | close => cases place <;> cases here
  | @start env all all' i started =>
    obtain ⟨job, waiting, slots, -⟩ := start?_slot started
    cases place with
    | nil => cases here
    | cons j place =>
      have here : slotTask? (all.slots.set i (.started job)) j place = some (.fire x) := slots ▸ here
      obtain ⟨rfl, a, e, there⟩ | ⟨other, there⟩ := slotTask?_set waiting here
      · cases e
        obtain ⟨holder, y, rfl⟩ := staged_waiting staged waiting
        cases place <;> cases there
      · exact .inl ⟨fun e => other (List.cons.inj e).1, there⟩
  | @join env all i o _ ended =>
    cases place with
    | nil => cases here
    | cons j place =>
      have here : slotTask? (all.slots.set i .joined) j place = some (.fire x) := here
      obtain ⟨rfl, a, e, -⟩ | ⟨other, there⟩ := slotTask?_set ended here
      · cases e
      · exact .inl ⟨fun e => other (List.cons.inj e).1, there⟩
  | @child env all i a path w' a' running step ih =>
    cases place with
    | nil => cases here
    | cons j place =>
      have here : slotTask? (all.slots.set i (.started a')) j place = some (.fire x) := here
      obtain ⟨rfl, b, e, there⟩ | ⟨other, there⟩ := slotTask?_set running here
      · cases e
        rw [task?_child running]
        have sound : ∀ t ∈ a.tasks, t.Sound _ := fun t mem => sound t (tasks_child running t mem)
        obtain ⟨ne, stays⟩ | ⟨rfl, taken⟩ := ih (staged_running staged running) sound there
        · exact .inl ⟨fun e => ne (List.cons.inj e).2, stays⟩
        · exact .inr ⟨rfl, taken⟩
      · exact .inl ⟨fun e => other (List.cons.inj e).1, there⟩

end Activity

/-- A guard is set by the task that is to set it, which goes on with the teardown. -/
theorem Activity.Act.guard {env : Work → Behaviour} {w w' : World} {t t' : Activity} {x : NodeId}
    (h : Act env w t w' t') (unset : (w.usage x).tornDown = false) (set : (w'.usage x).tornDown = true) :
    t = .fire x ∧ ∃ c, w.component? x = some c ∧ t' = c.undertaking env x := by
  have kept : (w'.usage x).tornDown ≠ (w.usage x).tornDown := by
    rw [unset, set]
    simp
  cases h with
  | acquire counted | drop counted | dropLast counted =>
    rw [World.usage_note] at kept
    exact (kept (World.tornDown_setUsage counted rfl)).elim
  | @fire y u c counted unfired kind =>
    by_cases here : y = x
    · subst here
      exact ⟨rfl, c, kind, rfl⟩
    · exact absurd (congrArg Usage.tornDown (World.usage_setUsage_ne _ here)) kept
  | inspect => exact absurd (World.tornDown_inspect ..) kept
  | _ => exact absurd rfl kept

namespace Machine

/-- One step of a release: it takes the last reference. -/
structure TakesLast (env : Environment) (x : NodeId) (id : CallId) (path : Path) (m m' : Machine) : Prop where
  step : m.step? env (.run id path) = some m'
  release : ∃ holder, m.task? id path = some (.release holder x)
  counted : m.world.usage? x ≠ none
  before : (m.world.usage x).refs = 1
  after : (m'.world.usage x).refs = 0

/-- The call itself took the last reference there, and has not moved on since. -/
def TookLast (env : Environment) (x : NodeId) (id : CallId) (path : Path) (moves : List Move) (m : Machine) :
    Prop :=
  ∃ earlier later before after, moves = earlier ++ .run id path :: later ∧ .run id path ∉ later ∧
    Run env {} earlier before ∧ TakesLast env x id path before after ∧ Run env after later m

theorem TookLast.next {env : Environment} {x : NodeId} {id : CallId} {path : Path} {moves : List Move}
    {m m' : Machine} {a : Move} (took : TookLast env x id path moves m) (step : m.step? env a = some m')
    (other : a ≠ .run id path) : TookLast env x id path (moves ++ [a]) m' := by
  obtain ⟨earlier, later, before, after, rfl, still, run, takes, rest⟩ := took
  refine ⟨earlier, later ++ [a], before, after, by simp, ?_, run, takes, rest.next step⟩
  intro mem
  rcases List.mem_append.mp mem with mem | mem
  · exact still mem
  · exact other (List.mem_singleton.mp mem).symm

theorem request_task? (r : Request) (path : Path) (x : NodeId) : r.activity.task? path ≠ some (.fire x) := by
  cases r with
  | acquire | release | report => cases path <;> simp [Request.activity, Activity.task?]
  | releaseAll => exact Activity.spread_task? _ _ _ _

/-- A task about to set the guard was so before the move, or takes the last reference in it. -/
theorem Valid.fire_origin {env : Environment} {m m' : Machine} {a : Move} {x : NodeId} {id : CallId} {path : Path}
    (valid : m.Valid) (step : m.step? env a = some m') (here : m'.task? id path = some (.fire x)) :
    (a ≠ .run id path ∧ m.task? id path = some (.fire x)) ∨
      (a = .run id path ∧ TakesLast env x id path m m') := by
  obtain ⟨b, found, there⟩ := Option.bind_eq_some_iff.mp here
  cases valid.callChange step id with
  | stays apart same =>
    refine .inl ⟨fun e => apart (by rw [e]; rfl), ?_⟩
    rw [task?, ← same]
    exact here
  | begins _ _ new =>
    rw [new] at found
    cases found
    exact absurd there (request_task? _ _ _)
  | @steps place b₀ b₁ old new moved =>
    rw [new] at found
    cases found
    have mem : (id, b₀) ∈ m.calls := mem_calls old
    obtain ⟨ne, was⟩ | ⟨rfl, holder, u, was, counted, last, left⟩ :=
      moved.fire_origin (valid.staged _ mem) (valid.sound_call mem) there
    · exact .inl ⟨by simpa using ne, by simpa [task?, old] using was⟩
    · refine .inr ⟨rfl, step, ⟨holder, by simpa [task?, old] using was⟩, by simp [counted], ?_, ?_⟩
      · rw [World.usage_of_usage? counted]
        exact last
      · rw [World.usage_of_usage? left]
  | returns _ new | dropped _ _ new =>
    rw [new] at found
    cases found

/-- Every call about to set the guard has itself taken the last reference. -/
theorem Run.tookLast {env : Environment} {moves : List Move} {m : Machine} (run : Run env {} moves m)
    {x : NodeId} {id : CallId} {path : Path} (here : m.task? id path = some (.fire x)) :
    TookLast env x id path moves m := by
  induction run with
  | start => cases here
  | @next moves m a m' run step ih =>
    obtain ⟨other, was⟩ | ⟨rfl, takes⟩ := (run.valid valid_empty).fire_origin step here
    · exact (ih was).next step other
    · exact ⟨moves, [], m, m', rfl, List.not_mem_nil, run, takes, .start⟩

/-- Whatever sets the guard is a step of a call that took the last reference, and that goes on with its own
teardown. -/
theorem Run.guard_set {env : Environment} {moves : List Move} {m m' : Machine} {a : Move} {x : NodeId}
    (run : Run env {} moves m) (step : m.step? env a = some m') (unset : (m.world.usage x).tornDown = false)
    (set : (m'.world.usage x).tornDown = true) :
    ∃ id path c, a = .run id path ∧ .fire x ∈ m.tasks ∧ TookLast env x id path moves m ∧
      m.world.component? x = some c ∧ m'.task? id path = (c.undertaking ((env id).behaviour path) x).task? [] := by
  have kept : (m'.world.usage x).tornDown ≠ (m.world.usage x).tornDown := by
    rw [unset, set]
    simp
  obtain ⟨c, -, -, world⟩ | ⟨id, path, t, t', rfl, act, mem, here, there⟩ | ⟨nodes, -⟩ :=
    ((run.valid valid_empty).change step).world_cases
  · rw [world, World.tornDown_acquireAll, World.usage_add] at kept
    exact absurd rfl kept
  · obtain ⟨rfl, c, kind, rfl⟩ := act.guard unset set
    exact ⟨id, path, c, rfl, mem, run.tookLast here, kind, there⟩
  · rw [World.usage, World.usage?, nodes] at kept
    exact absurd rfl kept

/-- A task that can act at all is free to act now. -/
theorem Valid.step?_of_task? {env : Environment} {m : Machine} {id : CallId} {path : Path} {t t' : Activity}
    {w : World} (valid : m.Valid) (here : m.task? id path = some t)
    (acts : Activity.act ((env id).behaviour path) m.world t = some (w, t')) :
    ∃ m', m.step? env (.run id path) = some m' ∧ m'.world = w ∧ m'.task? id path = t'.task? [] := by
  obtain ⟨a, found, here⟩ := Option.bind_eq_some_iff.mp here
  obtain ⟨a', moved, there⟩ := Activity.step?_of_task? here acts
  have step : m.step? env (.run id path) =
      some { m with world := w, calls := m.calls.map fun c => if c.1 = id then (id, a') else c } := by
    simp [step?, found, moved]
  obtain ⟨b, b', -, -, found', moved', -, -, now, -⟩ := valid.run step
  rw [found] at found'
  cases found'
  rw [moved] at moved'
  cases moved'
  exact ⟨_, step, rfl, by simpa [task?, now] using there⟩

section Account

variable {env : Environment} {moves : List Move} {m : Machine} {x : NodeId} {c : Component}

theorem Run.guard_stays {more : List Move} {m' : Machine} (run : Run env {} moves m)
    (kind : m.world.component? x = some c) (counted : c.isCounted = true)
    (set : (m.world.usage x).tornDown = true) (further : Run env m more m') :
    (m'.world.usage x).tornDown = true := by
  have valid := run.valid valid_empty
  have before := (run.account kind counted).1.fired
  have after := ((run.append further).account (further.component? valid kind) counted).1.fired
  have grows : m.world.count (.tornDown x) ≤ m'.world.count (.tornDown x) :=
    (further.journal valid).sublist.count_le _
  rw [set, Bool.toNat_true] at before
  cases later : (m'.world.usage x).tornDown with
  | true => rfl
  | false =>
    rw [later, Bool.toNat_false] at after
    omega

theorem Valid.release_empty {id : CallId} {path : Path} {holder : Holder} (valid : m.Valid)
    (kind : m.world.component? x = some c) (counted : c.isCounted = true)
    (here : m.task? id path = some (.release holder x)) (empty : (m.world.usage x).refs = 0) :
    ∃ m', m.step? env (.run id path) = some m' ∧ m'.world.nodes = m.world.nodes ∧
      m'.world.journal = .underflowed x :: .released holder x :: m.world.journal ∧
      m'.task? id path = some (.ended (.failed (.single .releaseUnderflow))) := by
  obtain ⟨u, found⟩ := World.usage?_isSome kind counted
  have none_left : u.drop? = none := by
    apply (Usage.drop?_eq_none_iff u).mpr
    rw [← World.usage_of_usage? found]
    exact empty
  have dropped : Activity.drop ((env id).behaviour path) m.world holder x =
      ((m.world.note (.released holder x)).note (.underflowed x),
        .ended (.failed (.single .releaseUnderflow))) := by
    simp [Activity.drop, found, none_left]
  obtain ⟨m', step, world, there⟩ := valid.step?_of_task? here (congrArg some dropped)
  refine ⟨m', step, ?_, ?_, there⟩
  · rw [world]
    rfl
  · rw [world]
    rfl

/-- With no call between the decrement and the guard, the guard is set if the count ever came to zero. -/
theorem Run.began_iff_emptied (run : Run env {} moves m) (kind : m.world.component? x = some c)
    (counted : c.isCounted = true) (idle : ∀ t ∈ m.tasks, t ≠ .fire x) :
    c.opening x ∈ m.world.journal ↔ .dropped x 0 ∈ m.world.journal := by
  obtain ⟨account, opened⟩ := run.account kind counted
  have no_fire : m.tasks.countP (Activity.fires x) = 0 := by
    apply List.countP_eq_zero.mpr
    intro t mem fires
    cases t with
    | fire y =>
      have here : y = x := by simpa [Activity.fires] using fires
      exact idle _ mem (by rw [here])
    | _ => simp [Activity.fires] at fires
  have emptied := account.emptied
  have fired := account.fired
  rw [no_fire] at emptied
  rw [← List.count_pos_iff, ← List.count_pos_iff]
  change 0 < m.world.count (c.opening x) ↔ 0 < m.world.count (.dropped x 0)
  rw [opened]
  constructor
  · omega
  · intro some_drop
    by_cases again : 0 < m.world.count (.releasedLate x)
    · rw [account.late again, Bool.toNat_true] at fired
      omega
    · omega

/-- In every interleaving the counter is what was acquired less what was dropped, and the guard stays set
once it is set, by a call that has itself taken the last reference; the teardown is begun when it is set and
at no other time. A release without a reference to drop ends with that failure and changes nothing. When no
call is between the decrement and the guard, the teardown was begun if the count ever came to zero. -/
theorem Run.counter_and_guard (run : Run env {} moves m) (kind : m.world.component? x = some c)
    (counted : c.isCounted = true) :
    (m.world.usage x).refs + m.world.times (Entry.drops x) = m.world.times (Entry.acquires x) ∧
    ((m.world.usage x).tornDown = true →
      ∀ more m', Run env m more m' → (m'.world.usage x).tornDown = true) ∧
    m.world.count (c.opening x) = (if (m.world.usage x).tornDown then 1 else 0) ∧
    (∀ a m', m.step? env a = some m' → (m.world.usage x).tornDown = false →
      (m'.world.usage x).tornDown = true →
      ∃ id path, a = .run id path ∧ TookLast env x id path moves m ∧
        m'.task? id path = (c.undertaking ((env id).behaviour path) x).task? []) ∧
    (∀ id path holder, m.task? id path = some (.release holder x) → (m.world.usage x).refs = 0 →
      ∃ m', m.step? env (.run id path) = some m' ∧ m'.world.nodes = m.world.nodes ∧
        m'.world.journal = .underflowed x :: .released holder x :: m.world.journal ∧
        m'.task? id path = some (.ended (.failed (.single .releaseUnderflow)))) ∧
    ((∀ t ∈ m.tasks, t ≠ .fire x) → (c.opening x ∈ m.world.journal ↔ .dropped x 0 ∈ m.world.journal)) := by
  obtain ⟨account, opened⟩ := run.account kind counted
  refine ⟨account.refs, ?_, ?_, ?_, ?_, ?_⟩
  · intro set more m' further
    exact run.guard_stays kind counted set further
  · rw [opened, account.fired]
    cases (m.world.usage x).tornDown <;> rfl
  · intro a m' step unset set
    obtain ⟨id, path, d, rfl, -, took, kind', there⟩ := run.guard_set step unset set
    rw [kind] at kind'
    cases kind'
    exact ⟨id, path, rfl, took, there⟩
  · intro id path holder here empty
    exact (run.valid valid_empty).release_empty kind counted here empty
  · intro idle
    exact run.began_iff_emptied kind counted idle

end Account

/-- Of two releases for one reference, the second falls between the decrement and the guard of the first. -/
def overlapping : List Move :=
  [.build .leaf, .call (.acquire 0), .run 0 [], .run 0 [], .call (.release 0), .call (.release 0),
    .run 1 [], .run 2 [], .run 1 []]

theorem counter_and_guard_overlapping :
    ∃ m, Run (.uniform fun _ => {}) {} overlapping m ∧ m.world.usage 0 = ⟨0, true⟩ ∧
      m.world.times (Entry.acquires 0) = m.world.times (Entry.drops 0) ∧
      m.world.count (.began ⟨0, .teardown⟩) = 1 := by
  obtain ⟨m, run, kind, usage⟩ : ∃ m, Run (.uniform fun _ => {}) {} overlapping m ∧
      m.world.component? 0 = some .leaf ∧ m.world.usage 0 = ⟨0, true⟩ := ⟨_, .of_foldlM rfl, rfl, rfl⟩
  obtain ⟨refs, -, began, -⟩ := Run.counter_and_guard run kind rfl
  rw [usage] at refs began
  exact ⟨m, run, usage, by simpa using refs.symm, began⟩

end Machine

end MetricPipeline
