import MetricPipeline.Proofs.Step

/-!
# What a task can do

`Activity.Act` has one rule for each way in which a task can act on the world, with the world it leaves and
what it turns into. `act_act` says that `Activity.act` follows these rules as long as the task concerns a
node that was made, which `Activity.Sound` says of all tasks at work.
-/

namespace MetricPipeline

/-- The entry with which the teardown of a component begins. -/
def Component.opening (x : NodeId) : Component → Entry
  | .leaf | .uncounted => .began ⟨x, .teardown⟩
  | .sink name => .closed x name
  | .hooked _ => .began ⟨x, .hook⟩
  | .router routes _ => .scattered x routes.size

/-- What the teardown of a component has then to do. -/
def Component.undertaking (env : Work → Behaviour) (x : NodeId) : Component → Activity
  | .leaf | .uncounted => .work ⟨x, .teardown⟩ (env ⟨x, .teardown⟩).wait (env ⟨x, .teardown⟩).outcome
  | .sink _ => .ended .ok
  | .hooked _ => .work ⟨x, .hook⟩ (env ⟨x, .hook⟩).wait (env ⟨x, .hook⟩).outcome
  | .router routes config => .spread config ((Component.router routes config).holds x)

def Component.isReceiver : Component → Bool
  | .leaf | .uncounted | .sink _ => true
  | _ => false

/-- A limit that a fan-out does not refuse. -/
def Config.isAdmissible (c : Config) : Bool := decide (c.maxConcurrentReleases ≤ FanOut.maxPermits)

theorem FanOut.spawn?_eq {α : Type} (config : Config) (jobs : List α) :
    FanOut.spawn? config jobs =
      if config.isAdmissible then some { free := config.releaseLimit, slots := jobs.map .waiting } else none := by
  unfold FanOut.spawn? Config.releaseLimit Config.isAdmissible
  by_cases unlimited : config.maxConcurrentReleases = 0
  · simp [unlimited]
  · by_cases bound : config.maxConcurrentReleases ≤ FanOut.maxPermits <;> simp [unlimited, bound]

namespace World

theorem usage?_eq_some_iff (w : World) (x : NodeId) (u : Usage) :
    w.usage? x = some u ↔ ∃ c, w.nodes[x]? = some ⟨c, u⟩ ∧ c.isCounted = true := by
  unfold usage?
  cases w.nodes[x]? with
  | none => simp
  | some n =>
    cases n with
    | mk c v =>
      cases counted : c.isCounted
      · simp only [counted, Bool.false_eq_true, if_false]
        constructor
        · rintro ⟨⟩
        · rintro ⟨c', e, h⟩
          cases e
          simp [counted] at h
      · simp only [counted, if_true]
        constructor
        · intro e
          cases e
          exact ⟨c, rfl, counted⟩
        · rintro ⟨c', e, -⟩
          cases e
          rfl

theorem component?_of_usage? {w : World} {x : NodeId} {u : Usage} (h : w.usage? x = some u) :
    ∃ c, w.component? x = some c ∧ c.isCounted = true := by
  obtain ⟨c, node, counted⟩ := (w.usage?_eq_some_iff x u).mp h
  exact ⟨c, by simp [component?, node], counted⟩

theorem usage?_isSome {w : World} {x : NodeId} {c : Component} (kind : w.component? x = some c)
    (counted : c.isCounted = true) : ∃ u, w.usage? x = some u := by
  obtain ⟨n, node, rfl⟩ := Option.map_eq_some_iff.mp kind
  exact ⟨n.usage, (w.usage?_eq_some_iff x n.usage).mpr ⟨n.component, node, counted⟩⟩

theorem uncounted_of_usage? {w : World} {x : NodeId} {c : Component} (kind : w.component? x = some c)
    (h : w.usage? x = none) : c = .uncounted := by
  cases counted : c.isCounted with
  | true =>
    obtain ⟨u, hu⟩ := usage?_isSome kind counted
    rw [hu] at h
    cases h
  | false =>
    cases c with
    | uncounted => rfl
    | leaf | sink | hooked | router => cases counted

theorem usage?_uncounted {w : World} {x : NodeId} (kind : w.component? x = some .uncounted) :
    w.usage? x = none := by
  cases h : w.usage? x with
  | none => rfl
  | some u =>
    obtain ⟨c, kind', counted⟩ := component?_of_usage? h
    rw [kind] at kind'
    cases kind'
    simp [Component.isCounted] at counted

end World

namespace Activity

theorem slotsTasks_waiting (jobs : List Activity) :
    slotsTasks (jobs.map .waiting) = jobs.flatMap tasks := by
  induction jobs with
  | nil => rfl
  | cons job rest ih => simp [slotsTasks, ih]

theorem tasks_spread (config : Config) (rs : List (Holder × NodeId)) :
    (spread config rs).tasks =
      if config.isAdmissible then rs.map fun r => release r.1 r.2 else [] := by
  unfold spread
  rw [FanOut.spawn?_eq]
  cases config.isAdmissible with
  | true =>
    simp only [if_true, tasks, slotsTasks_waiting, List.flatMap_map]
    exact (List.map_eq_flatMap ..).symm
  | false => rfl

theorem mem_tasks_spread {config : Config} {rs : List (Holder × NodeId)} {t : Activity}
    (mem : t ∈ (spread config rs).tasks) : ∃ r ∈ rs, t = release r.1 r.2 := by
  rw [tasks_spread] at mem
  split at mem
  · obtain ⟨r, held, rfl⟩ := List.mem_map.mp mem
    exact ⟨r, held, rfl⟩
  · cases mem

section

variable {α : Type} {f : Activity → List α}

theorem flatMap_tasks_spread (config : Config) (rs : List (Holder × NodeId)) :
    (spread config rs).tasks.flatMap f =
      if config.isAdmissible then rs.flatMap fun r => f (release r.1 r.2) else [] := by
  rw [tasks_spread]
  split
  · rw [List.flatMap_map]
  · rfl

theorem flatMap_tasks_spread_nil (nothing : ∀ h x, f (release h x) = []) (config : Config)
    (rs : List (Holder × NodeId)) : (spread config rs).tasks.flatMap f = [] := by
  apply List.flatMap_eq_nil_iff.mpr
  intro t mem
  obtain ⟨r, -, rfl⟩ := mem_tasks_spread mem
  exact nothing r.1 r.2

end

/-- The node a task is about. -/
def node? : Activity → Option NodeId
  | acquire _ x | inspect x _ | release _ x | fire x | report x _ => some x
  | work k _ _ => some k.node
  | ended _ | delegate _ _ | fanOut _ => none

inductive Act (env : Work → Behaviour) (w : World) : Activity → World → Activity → Prop
  | acquire {h x u} (counted : w.usage? x = some u) :
      Act env w (acquire h x) ((w.setUsage x u.acquire).note (.acquired h x)) (inspect x (u.refs + 1))
  | acquireUncounted {h x} (kind : w.component? x = some .uncounted) :
      Act env w (acquire h x) (w.note (.acquired h x)) (ended .ok)
  | inspect {x refs} : Act env w (inspect x refs) (w.inspect x refs) (ended .ok)
  | underflow {h x u} (counted : w.usage? x = some u) (empty : u.refs = 0) :
      Act env w (release h x) ((w.note (.released h x)).note (.underflowed x))
        (ended (.failed (.single .releaseUnderflow)))
  | drop {h x u left} (counted : w.usage? x = some u) (more : u.refs = left + 1 + 1) :
      Act env w (release h x)
        (((w.note (.released h x)).setUsage x { u with refs := left + 1 }).note (.dropped x (left + 1)))
        (ended .ok)
  | dropLast {h x u} (counted : w.usage? x = some u) (last : u.refs = 1) :
      Act env w (release h x)
        (((w.note (.released h x)).setUsage x { u with refs := 0 }).note (.dropped x 0)) (fire x)
  | releaseUncounted {h x} (kind : w.component? x = some .uncounted) :
      Act env w (release h x) ((w.note (.released h x)).note (.began ⟨x, .teardown⟩))
        (Component.uncounted.undertaking env x)
  | late {x} (spent : ∀ u, w.usage? x = some u → u.tornDown = true) :
      Act env w (fire x) (w.note (.releasedLate x)) (ended .ok)
  | fire {x u c} (counted : w.usage? x = some u) (unfired : u.tornDown = false)
      (kind : w.component? x = some c) :
      Act env w (fire x)
        (((w.setUsage x { u with tornDown := true }).note (.tornDown x)).note (c.opening x))
        (c.undertaking env x)
  | receive {x r c} (kind : w.component? x = some c) (receiver : c.isReceiver = true) :
      Act env w (report x r) ((w.note (.handed x r)).note (.began ⟨x, .report⟩))
        (work ⟨x, .report⟩ (env ⟨x, .report⟩).wait (env ⟨x, .report⟩).outcome)
  | forward {x r below} (kind : w.component? x = some (.hooked below)) :
      Act env w (report x r) (w.note (.handed x r)) (report below r)
  | route {x r routes config y} (kind : w.component? x = some (.router routes config))
      (found : routes.get? r.name = some y) :
      Act env w (report x r) (w.note (.handed x r)) (report y r)
  | unrouted {x r routes config} (kind : w.component? x = some (.router routes config))
      (missing : routes.get? r.name = none) :
      Act env w (report x r) ((w.note (.handed x r)).note (.unrouted x r.name))
        (ended (.failed (.single (.unknownMetric r.name))))
  | resume {k gate o} (opened : w.isOpen gate = true) :
      Act env w (work k (some gate) o) (w.note (.resumed k)) (work k none o)
  | hookEnd {x below o} (kind : w.component? x = some (.hooked below)) (calm : ∀ p, o ≠ .panicked p) :
      Act env w (work ⟨x, .hook⟩ none o) (w.note (.finished ⟨x, .hook⟩ o))
        (delegate o.hookFailure? (release (.wrapper x) below))
  | hookPanic {x below p} (kind : w.component? x = some (.hooked below)) :
      Act env w (work ⟨x, .hook⟩ none (.panicked p))
        ((w.note (.finished ⟨x, .hook⟩ (.panicked p))).note (.hookPanicked x p))
        (delegate (Outcome.panicked p).hookFailure? (release (.wrapper x) below))
  | workEnd {k o} (other : k.duty = .hook → ∀ below, w.component? k.node ≠ some (.hooked below)) :
      Act env w (work k none o) (w.note (.finished k o)) (ended o)

theorem teardown_eq {env : Work → Behaviour} {w : World} {x : NodeId} {c : Component}
    (kind : w.component? x = some c) :
    teardown env w x = (w.note (c.opening x), c.undertaking env x) := by
  unfold teardown
  rw [kind]
  cases c <;> rfl

theorem drop_act {env : Work → Behaviour} {w : World} {h : Holder} {x : NodeId} {c : Component}
    (kind : w.component? x = some c) :
    Act env w (release h x) (drop env w h x).1 (drop env w h x).2 := by
  unfold drop
  simp only [World.usage?_note]
  cases counted : w.usage? x with
  | none =>
    cases World.uncounted_of_usage? kind counted
    simp only [teardown_eq (w := w.note (.released h x)) (x := x) (c := .uncounted) kind]
    exact .releaseUncounted kind
  | some u =>
    cases u with
    | mk refs tornDown =>
      match refs, counted with
      | 0, counted => exact .underflow counted rfl
      | 1, counted => exact .dropLast counted rfl
      | left + 2, counted => exact .drop counted rfl

theorem trigger_act {env : Work → Behaviour} {w : World} {x : NodeId} {c : Component}
    (kind : w.component? x = some c) : Act env w (.fire x) (trigger env w x).1 (trigger env w x).2 := by
  unfold trigger
  cases counted : w.usage? x with
  | none => exact .late fun u hu => by simp [counted] at hu
  | some u =>
    cases unfired : u.tornDown with
    | true =>
      have spent : u.fire? = none := by simp [Usage.fire?, unfired]
      simp only [Option.bind_some, spent]
      refine .late fun v hv => ?_
      rw [counted] at hv
      cases hv
      exact unfired
    | false =>
      have fired : u.fire? = some { u with tornDown := true } :=
        (u.fire?_eq_some_iff _).mpr ⟨unfired, rfl⟩
      have kind' : ((w.setUsage x { u with tornDown := true }).note (.tornDown x)).component? x = some c := by
        simpa using kind
      simp only [Option.bind_some, fired, teardown_eq kind']
      exact .fire counted unfired kind

theorem hand_act {env : Work → Behaviour} {w : World} {x : NodeId} {r : Report} {c : Component}
    (kind : w.component? x = some c) : Act env w (report x r) (hand env w x r).1 (hand env w x r).2 := by
  unfold hand
  simp only [World.component?_note, kind]
  cases c with
  | leaf | uncounted | sink => exact .receive kind rfl
  | hooked below => exact .forward kind
  | router routes config =>
    dsimp only
    split
    · exact .route kind ‹_›
    · exact .unrouted kind ‹_›

theorem conclude_act {env : Work → Behaviour} {w : World} {k : Work} {o : Outcome} :
    Act env w (work k none o) (conclude w k o).1 (conclude w k o).2 := by
  obtain ⟨x, duty⟩ := k
  cases duty with
  | teardown | report => exact .workEnd fun duty => by cases duty
  | hook =>
    unfold conclude
    simp only [World.component?_note]
    cases kind : w.component? x with
    | none => exact .workEnd fun _ below => by simp [kind]
    | some c =>
      cases c with
      | leaf | uncounted | sink | router => exact .workEnd fun _ below => by simp [kind]
      | hooked below =>
        cases o with
        | panicked p => exact .hookPanic kind
        | ok | failed => exact .hookEnd kind fun p => by simp

/-- Nothing else can be done by a task that is about a node. -/
theorem act_act {env : Work → Behaviour} {w w' : World} {t t' : Activity}
    (known : ∀ x, t.node? = some x → (w.component? x).isSome = true)
    (h : act env w t = some (w', t')) : Act env w t w' t' := by
  have kind : ∀ x, t.node? = some x → ∃ c, w.component? x = some c :=
    fun x here => Option.isSome_iff_exists.mp (known x here)
  cases t with
  | ended | delegate | fanOut => simp [act] at h
  | acquire holder x =>
    obtain ⟨c, kind⟩ := kind x rfl
    simp only [act, World.increment] at h
    cases counted : w.usage? x with
    | none =>
      simp only [counted, World.usage?_note] at h
      cases h
      cases World.uncounted_of_usage? kind counted
      exact .acquireUncounted kind
    | some u =>
      simp only [counted, World.usage?_note, World.usage?_setUsage, if_true, Option.map_some] at h
      cases h
      exact .acquire counted
  | inspect x refs =>
    cases h
    exact .inspect
  | release holder x =>
    obtain ⟨c, kind⟩ := kind x rfl
    obtain ⟨rfl, rfl⟩ := Prod.mk.inj (Option.some.inj h)
    exact drop_act kind
  | fire x =>
    obtain ⟨c, kind⟩ := kind x rfl
    obtain ⟨rfl, rfl⟩ := Prod.mk.inj (Option.some.inj h)
    exact trigger_act kind
  | report x r =>
    obtain ⟨c, kind⟩ := kind x rfl
    obtain ⟨rfl, rfl⟩ := Prod.mk.inj (Option.some.inj h)
    exact hand_act kind
  | work k wait o =>
    cases wait with
    | none =>
      obtain ⟨rfl, rfl⟩ := Prod.mk.inj (Option.some.inj h)
      exact conclude_act
    | some gate =>
      simp only [act] at h
      split at h
      · cases h
        exact .resume ‹_›
      · cases h

theorem undertaking_staged (env : Work → Behaviour) (c : Component) (x : NodeId) :
    (c.undertaking env x).Staged := by
  cases c with
  | leaf | uncounted | sink | hooked => trivial
  | router routes config => exact staged_spread ..

/-- A task turns into one without fan-out, or into a fan-out of which no job has begun. -/
theorem Act.staged {env : Work → Behaviour} {w w' : World} {t t' : Activity} (h : Act env w t w' t') :
    t'.Staged := by
  cases h with
  | releaseUncounted | fire => exact undertaking_staged ..
  | _ => trivial

theorem Step.staged {env : Surroundings} {w w' : World} {a a' : Activity} {path : Path}
    (h : Step w env a path w' a')
    (known : ∀ t ∈ a.tasks, ∀ x, t.node? = some x → (w.component? x).isSome = true) (staged : a.Staged) :
    a'.Staged := by
  induction h with
  | @act env a w' a' acts => exact (act_act (known a (by simp [act_tasks acts])) acts).staged
  | merge | close => trivial
  | delegated _ ih => exact ih known staged
  | @start env all all' i started =>
    obtain ⟨job, waiting, slots, queue, -⟩ := start?_slot started
    obtain ⟨h, x, rfl⟩ := staged_waiting staged waiting
    obtain ⟨jobs, queued⟩ : SlotsStaged all.slots ∧ all.Queued := staged
    obtain ⟨before, after, old, new⟩ := split_at waiting
    refine ⟨?_, queued.start waiting (by simp) slots queue⟩
    rw [old, slotsStaged_append] at jobs
    rw [slots, new, slotsStaged_append]
    exact ⟨jobs.1, trivial, jobs.2.2⟩
  | @join env all i o next slot =>
    obtain ⟨jobs, queued⟩ : SlotsStaged all.slots ∧ all.Queued := staged
    obtain ⟨before, after, old, new⟩ := split_at slot
    refine ⟨?_, queued.join next _⟩
    rw [old, slotsStaged_append] at jobs
    rw [new, slotsStaged_append]
    exact ⟨jobs.1, jobs.2.2⟩
  | @child env all i a path w' a' slot step ih =>
    obtain ⟨jobs, queued⟩ : SlotsStaged all.slots ∧ all.Queued := staged
    obtain ⟨before, after, old, new⟩ := split_at slot
    refine ⟨?_, queued.advance slot step.going⟩
    have known : ∀ t ∈ a.tasks, ∀ x, t.node? = some x → (w.component? x).isSome = true :=
      fun t mem => known t (tasks_child slot t mem)
    rw [old, slotsStaged_append] at jobs
    rw [new, slotsStaged_append]
    exact ⟨jobs.1, ih known jobs.2.1, jobs.2.2⟩

end Activity
end MetricPipeline
