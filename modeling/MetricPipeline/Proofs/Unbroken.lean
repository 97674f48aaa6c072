import MetricPipeline.Proofs.History

/-!
# Operations that are not broken up

An acquisition is two steps, and so is the release of the last reference. In an `Unbroken` run nothing comes between
them, as when calls run side by side and only give way to each other where they wait. Then what is written of late
acquisitions is the count that each acquisition led to that came after the guard was set (`Unbroken.late_counts`).
In any run the journal says how often the count of a node came to zero (`Run.count_emptied`).
-/

namespace MetricPipeline

/-! ## Acquisitions that come late -/

/-- The count that goes with a late acquisition of the node. -/
def Entry.late? (x : NodeId) : Entry → Option Nat
  | acquiredLate y refs => if y = x then some refs else none
  | _ => none

theorem Entry.late?_aside {x : NodeId} {new : List Entry} (quiet : ∀ e ∈ new, ∀ y refs, e ≠ .acquiredLate y refs) :
    new.reverse.filterMap (late? x) = [] := by
  refine List.filterMap_eq_nil_iff.mpr fun e mem => ?_
  have other := quiet e (List.mem_reverse.mp mem)
  cases e with
  | acquiredLate y refs => exact absurd rfl (other y refs)
  | _ => rfl

/-- The counts of a node after each of its acquisitions from one world to another, if its guard was set before. -/
def World.lateCounts (x : NodeId) (w w' : World) : List Nat :=
  if (w.usage x).tornDown then List.range' ((w.usage x).refs + 1) ((w'.usage x).refs - (w.usage x).refs) else []

theorem World.lateCounts_nil {x : NodeId} {w w' : World} (quiet : (w.usage x).tornDown = true →
    (w'.usage x).refs ≤ (w.usage x).refs) : lateCounts x w w' = [] := by
  unfold lateCounts
  split
  · rw [Nat.sub_eq_zero_of_le (quiet ‹_›)]
    rfl
  · rfl

/-- From one world to another a node is acquired any number of times, and what is logged of that are the counts that
each acquisition led to, if it was late. -/
structure Raised (x : NodeId) (w w' : World) : Prop where
  tornDown : (w'.usage x).tornDown = (w.usage x).tornDown
  refs : (w.usage x).refs ≤ (w'.usage x).refs
  written : ∃ new, w'.journal = new ++ w.journal ∧ (∀ e ∈ new, e.isAcquisition = true) ∧
    new.reverse.filterMap (Entry.late? x) = World.lateCounts x w w'

namespace Raised

variable {x : NodeId} {w w' w'' : World}

theorem lateCounts_append (first : Raised x w w') (second : Raised x w' w'') :
    World.lateCounts x w w' ++ World.lateCounts x w' w'' = World.lateCounts x w w'' := by
  have le := first.refs
  have le' := second.refs
  unfold World.lateCounts
  rw [first.tornDown]
  split
  · have start : (w'.usage x).refs + 1 = (w.usage x).refs + 1 + ((w'.usage x).refs - (w.usage x).refs) := by omega
    rw [start, List.range'_append_1]
    congr 1
    omega
  · rfl

theorem trans (first : Raised x w w') (second : Raised x w' w'') : Raised x w w'' := by
  obtain ⟨new, journal, acquisitions, late⟩ := first.written
  obtain ⟨more, journal', acquisitions', late'⟩ := second.written
  refine ⟨second.tornDown.trans first.tornDown, Nat.le_trans first.refs second.refs, more ++ new, ?_, ?_, ?_⟩
  · rw [journal', journal, List.append_assoc]
  · intro e mem
    exact (List.mem_append.mp mem).elim (acquisitions' e) (acquisitions e)
  · rw [List.reverse_append, List.filterMap_append, late, late', first.lateCounts_append second]

theorem refl {w w' : World} (new : List Entry) (same : w'.usage = w.usage) (journal : w'.journal = new ++ w.journal)
    (acquisitions : ∀ e ∈ new, e.isAcquisition = true) (quiet : ∀ e ∈ new, ∀ y refs, e ≠ .acquiredLate y refs) :
    Raised x w w' := by
  refine ⟨by rw [same], Nat.le_of_eq (by rw [same]), new, journal, acquisitions, ?_⟩
  rw [Entry.late?_aside quiet, World.lateCounts_nil fun _ => Nat.le_of_eq (by rw [same])]

/-- Both halves of an acquisition. -/
theorem halves {u : Usage} {y : NodeId} (h : Holder) (counted : w.usage? y = some u) :
    Raised x w (((w.setUsage y u.acquire).note (.acquired h y)).inspect y (u.refs + 1)) := by
  have now : ((w.setUsage y u.acquire).note (.acquired h y)).usage? y = some u.acquire := by
    simp [World.usage?_setUsage, counted]
  have found : (((w.setUsage y u.acquire).note (.acquired h y)).inspect y (u.refs + 1)) =
      if u.tornDown then ((w.setUsage y u.acquire).note (.acquired h y)).note (.acquiredLate y (u.refs + 1))
      else (w.setUsage y u.acquire).note (.acquired h y) := by
    rw [World.inspect, now]
    rfl
  have usage : (((w.setUsage y u.acquire).note (.acquired h y)).inspect y (u.refs + 1)).usage =
      (w.setUsage y u.acquire).usage := by
    rw [found]
    split <;> rfl
  have journal : (((w.setUsage y u.acquire).note (.acquired h y)).inspect y (u.refs + 1)).journal =
      ((if u.tornDown then [.acquiredLate y (u.refs + 1)] else []) ++ [.acquired h y]) ++ w.journal := by
    rw [found]
    split <;> rfl
  by_cases here : y = x
  · subst here
    have before : w.usage y = u := World.usage_of_usage? counted
    have after : (w.setUsage y u.acquire).usage y = u.acquire := World.usage_setUsage_self counted
    refine ⟨?_, ?_, _, journal, ?_, ?_⟩
    · rw [usage, after, before]
      rfl
    · rw [usage, after, before]
      exact Nat.le_succ _
    · split <;> simp [Entry.isAcquisition]
    · rw [World.lateCounts, usage, after, before]
      split <;> simp [List.filterMap_cons, Entry.late?, Usage.acquire]
  · have same : (w.setUsage y u.acquire).usage x = w.usage x := World.usage_setUsage_ne _ here
    refine ⟨by rw [usage, same], Nat.le_of_eq (by rw [usage, same]), _, journal, ?_, ?_⟩
    · split <;> simp [Entry.isAcquisition]
    · rw [World.lateCounts_nil fun _ => Nat.le_of_eq (by rw [usage, same])]
      split <;> simp [List.filterMap_cons, Entry.late?, here]

theorem acquire (w : World) (h : Holder) (y : NodeId) : Raised x w (w.acquire h y) := by
  unfold World.acquire World.increment
  cases counted : w.usage? y with
  | none =>
    simp only [World.usage?_note, counted]
    refine refl [.acquired h y] rfl rfl (by simp [Entry.isAcquisition]) (by simp)
  | some u =>
    have now : ((w.setUsage y u.acquire).note (.acquired h y)).usage? y = some u.acquire := by
      simp [World.usage?_setUsage, counted]
    simp only [now]
    exact halves h counted

theorem acquireAll (w : World) (rs : List Reference) : Raised x w (w.acquireAll rs) := by
  induction rs generalizing w with
  | nil => exact refl [] rfl rfl (by simp) (by simp)
  | cons r rest ih => exact (acquire w r.1 r.2).trans (ih (w.acquire r.1 r.2))

end Raised

/-- What is logged of late acquisitions from one world to another is the counts that they led to. -/
def Recounts (x : NodeId) (w w' : World) : Prop :=
  ∃ new, w'.journal = new ++ w.journal ∧ new.reverse.filterMap (Entry.late? x) = World.lateCounts x w w'

theorem Raised.recounts {x : NodeId} {w w' : World} (raised : Raised x w w') : Recounts x w w' := by
  obtain ⟨new, journal, -, late⟩ := raised.written
  exact ⟨new, journal, late⟩

theorem Recounts.quiet {x : NodeId} {w w' : World} (new : List Entry) (journal : w'.journal = new ++ w.journal)
    (silent : ∀ e ∈ new, ∀ y refs, e ≠ .acquiredLate y refs)
    (refs : (w.usage x).tornDown = true → (w'.usage x).refs ≤ (w.usage x).refs) : Recounts x w w' :=
  ⟨new, journal, (Entry.late?_aside silent).trans (World.lateCounts_nil refs).symm⟩

theorem Recounts.append {x : NodeId} {w w' w'' : World} (first : Recounts x w w') (second : Recounts x w' w'') :
    ∃ new, w''.journal = new ++ w.journal ∧
      new.reverse.filterMap (Entry.late? x) = World.lateCounts x w w' ++ World.lateCounts x w' w'' := by
  obtain ⟨new, journal, late⟩ := first
  obtain ⟨more, journal', late'⟩ := second
  refine ⟨more ++ new, by rw [journal', journal, List.append_assoc], ?_⟩
  rw [List.reverse_append, List.filterMap_append, late, late']

theorem World.usage_inspect (w : World) (x : NodeId) (refs : Nat) : (w.inspect x refs).usage = w.usage := by
  unfold inspect
  split
  · split <;> rfl
  · rfl

namespace Activity

/-- What a step of a task does to counts and guards, and whether it writes of late acquisitions or of what is left. -/
inductive Reckons (w : World) : Activity → World → Activity → Prop
  | up {t h x u} (counted : w.usage? x = some u) :
      Reckons w t ((w.setUsage x u.acquire).note (.acquired h x)) (inspect x (u.refs + 1))
  | read {x refs t'} : Reckons w (inspect x refs) (w.inspect x refs) t'
  | down {t h x u left t'} (counted : w.usage? x = some u) (some_left : u.refs = left + 1) :
      Reckons w t (((w.note (.released h x)).setUsage x { u with refs := left }).note (.dropped x left)) t'
  | set {t x u t'} {c : Component} (counted : w.usage? x = some u) (unfired : u.tornDown = false) :
      Reckons w t (((w.setUsage x { u with tornDown := true }).note (.tornDown x)).note (c.opening x)) t'
  | aside {t w' t'} (new : List Entry) (usage : w'.usage = w.usage) (journal : w'.journal = new ++ w.journal)
      (silent : ∀ e ∈ new, ∀ y n, e ≠ .acquiredLate y n ∧ e ≠ .dropped y n) : Reckons w t w' t'

variable {env : Work → Behaviour} {w w' : World} {t t' : Activity} {x : NodeId}

/-- A task of which the other half is still to come. -/
def isHalfDone (t : Activity) : Bool := !t.isInterruptible

theorem undertaking_whole (env : Work → Behaviour) (c : Component) (x : NodeId) :
    (c.undertaking env x).tasks.countP isHalfDone = 0 := by
  apply List.countP_eq_zero.mpr
  intro s mem
  cases c with
  | leaf | uncounted | hooked =>
    cases List.mem_singleton.mp mem
    simp [Component.undertaking, isHalfDone, isInterruptible]
  | sink => cases mem
  | router routes config =>
    obtain ⟨r, -, rfl⟩ := mem_tasks_spread mem
    simp [isHalfDone, isInterruptible]

/-- A task takes half of an operation when it acquires a node, or releases its last reference. -/
theorem Act.half (h : Act env w t w' t') : t'.tasks.countP isHalfDone = 0 ∨
    (∃ holder x u, w.usage? x = some u ∧ w' = (w.setUsage x u.acquire).note (.acquired holder x) ∧
      t' = .inspect x (u.refs + 1)) ∨
    ∃ x, t' = .fire x := by
  cases h with
  | acquire counted => exact .inr (.inl ⟨_, _, _, counted, rfl, rfl⟩)
  | dropLast => exact .inr (.inr ⟨_, rfl⟩)
  | releaseUncounted | fire => exact .inl (undertaking_whole ..)
  | _ => exact .inl rfl

/-- With the other half of an operation it is done. -/
theorem Act.other_half (h : Act env w t w' t') (half : (∃ x refs, t = .inspect x refs) ∨ ∃ x, t = .fire x) :
    t'.tasks.countP isHalfDone = 0 := by
  obtain ⟨x, refs, rfl⟩ | ⟨x, rfl⟩ := half
  · cases h
    rfl
  · cases h with
    | late => rfl
    | fire => exact undertaking_whole ..

theorem Act.reckons (h : Act env w t w' t') : Reckons w t w' t' := by
  cases h with
  | acquire counted => exact .up counted
  | inspect => exact .read
  | drop counted more => exact .down counted more
  | dropLast counted last => exact .down counted last
  | fire counted unfired => exact .set counted unfired
  | @acquireUncounted holder y => exact .aside [.acquired holder y] rfl rfl (by simp)
  | @underflow holder y => exact .aside [.underflowed y, .released holder y] rfl rfl (by simp)
  | @releaseUncounted holder y => exact .aside [.began ⟨y, .teardown⟩, .released holder y] rfl rfl (by simp)
  | @late y => exact .aside [.releasedLate y] rfl rfl (by simp)
  | @receive y r => exact .aside [.began ⟨y, .report⟩, .handed y r] rfl rfl (by simp)
  | @forward y r | @route y r => exact .aside [.handed y r] rfl rfl (by simp)
  | @unrouted y r => exact .aside [.unrouted y r.name, .handed y r] rfl rfl (by simp)
  | @resume k => exact .aside [.resumed k] rfl rfl (by simp)
  | @hookEnd y below o => exact .aside [.finished ⟨y, .hook⟩ o] rfl rfl (by simp)
  | @hookPanic y below p => exact .aside [.hookPanicked y p, .finished ⟨y, .hook⟩ (.panicked p)] rfl rfl (by simp)
  | @workEnd k o => exact .aside [.finished k o] rfl rfl (by simp)

/-- A task that neither acquires a node nor reads the guard after that. -/
theorem Act.recounts (h : Act env w t w' t') (x : NodeId) (before : ∀ y refs, t ≠ .inspect y refs)
    (after : ∀ y refs, t' ≠ .inspect y refs) : Recounts x w w' := by
  have still : ∀ {w₁ : World}, w₁.usage = w.usage → (w.usage x).tornDown = true →
      (w₁.usage x).refs ≤ (w.usage x).refs := fun same _ => Nat.le_of_eq (by rw [same])
  have fewer : ∀ {y u v}, w.usage? y = some u → v ≤ u.refs → (w.usage x).tornDown = true →
      ((w.setUsage y { u with refs := v }).usage x).refs ≤ (w.usage x).refs := by
    intro y u v counted le _
    by_cases here : y = x
    · subst here
      rw [World.usage_setUsage_self counted, World.usage_of_usage? counted]
      exact le
    · exact Nat.le_of_eq (congrArg Usage.refs (World.usage_setUsage_ne _ here))
  cases h.reckons with
  | up => exact absurd rfl (after _ _)
  | read => exact absurd rfl (before _ _)
  | @down _ holder y u left _ counted some_left =>
    exact .quiet [.dropped y left, .released holder y] rfl (by simp) (fewer counted (by omega))
  | @set _ y u _ c counted unfired =>
    refine .quiet [c.opening y, .tornDown y] rfl (by cases c <;> simp [Component.opening]) fun torn => ?_
    by_cases here : y = x
    · subst here
      rw [World.usage_of_usage? counted, unfired] at torn
      cases torn
    · exact Nat.le_of_eq (congrArg Usage.refs (World.usage_setUsage_ne _ here))
  | aside new usage journal silent =>
    exact .quiet new journal (fun e mem y refs => (silent e mem y refs).1) (still usage)

end Activity

namespace Machine

/-- How many tasks have taken one half of an operation. -/
def halves (m : Machine) : Nat := m.tasks.countP Activity.isHalfDone

/-- A run in which nothing comes between the two halves of an acquisition or of a release: they are two steps at the
same place, one right after the other. -/
inductive Unbroken (env : Environment) : List Move → Machine → Prop
  | start : Unbroken env [] {}
  | next {moves m a m'} (run : Unbroken env moves m) (step : m.step? env a = some m') (whole : m'.halves = 0) :
      Unbroken env (moves ++ [a]) m'
  | both {moves m a m₁ m'} (run : Unbroken env moves m) (step : m.step? env a = some m₁) (half : m₁.halves ≠ 0)
      (again : m₁.step? env a = some m') : Unbroken env (moves ++ [a] ++ [a]) m'

/-- A move, and the same once more if the first has done only half of an operation. -/
def stride? (env : Environment) (s : List Move × Machine) (a : Move) : Option (List Move × Machine) :=
  (s.2.step? env a).bind fun m =>
    if m.halves = 0 then some (s.1 ++ [a], m) else (m.step? env a).map fun m' => (s.1 ++ [a] ++ [a], m')

section

variable {env : Environment} {m m₁ m' : Machine} {moves : List Move} {a : Move} {x : NodeId}

theorem Unbroken.run (unbroken : Unbroken env moves m) : Run env {} moves m := by
  induction unbroken with
  | start => exact .start
  | next _ step _ ih => exact ih.next step
  | both _ step _ again ih => exact (ih.next step).next again

theorem Unbroken.stride (unbroken : Unbroken env moves m) {s : List Move × Machine}
    (h : stride? env (moves, m) a = some s) : Unbroken env s.1 s.2 := by
  obtain ⟨m₁, step, more⟩ := Option.bind_eq_some_iff.mp h
  split at more
  · cases more
    exact unbroken.next step ‹_›
  · obtain ⟨m', again, rfl⟩ := Option.map_eq_some_iff.mp more
    exact unbroken.both step ‹_› again

theorem Unbroken.of_foldlM (unbroken : Unbroken env moves m) {strides : List Move} {s : List Move × Machine}
    (h : strides.foldlM (stride? env) (moves, m) = some s) : Unbroken env s.1 s.2 := by
  induction strides generalizing moves m with
  | nil =>
    cases h
    exact unbroken
  | cons a rest ih =>
    obtain ⟨between, stride, more⟩ := Option.bind_eq_some_iff.mp h
    exact ih (unbroken.stride stride) more

theorem request_whole (r : Request) : r.activity.tasks.countP Activity.isHalfDone = 0 := by
  apply List.countP_eq_zero.mpr
  intro t mem
  cases r with
  | releaseAll xs config =>
    obtain ⟨r, -, rfl⟩ := Activity.mem_tasks_spread mem
    simp [Activity.isHalfDone, Activity.isInterruptible]
  | acquire | release | report =>
    cases List.mem_singleton.mp mem
    simp [Request.activity, Activity.isHalfDone, Activity.isInterruptible]

/-- What is done by half is done so by a task that acts, and is next at its place. -/
theorem Valid.half_taken (valid : m.Valid) (whole : m.halves = 0) (step : m.step? env a = some m₁)
    (half : m₁.halves ≠ 0) :
    ∃ id path t t', a = .run id path ∧ Activity.Act ((env id).behaviour path) m.world t m₁.world t' ∧
      t.isHalfDone = false ∧ m₁.task? id path = t'.task? [] ∧ t'.tasks.countP Activity.isHalfDone = m₁.halves := by
  unfold halves at *
  cases valid.change step with
  | build _ _ tasks | arrange _ tasks | openGate _ tasks | finish _ tasks => exact absurd (tasks ▸ whole) half
  | @call r _ _ tasks =>
    rw [tasks, List.countP_append, whole, request_whole] at half
    exact absurd rfl half
  | @act id path t t' before after act _ there old new =>
    rw [old, List.countP_append, List.countP_cons] at whole
    refine ⟨id, path, t, t', rfl, act, ?_, there, ?_⟩
    · cases done : t.isHalfDone with
      | false => rfl
      | true => simp [done] at whole
    · rw [new, List.countP_append, List.countP_append]
      omega
  | cancel _ old new =>
    rw [new, List.countP_append] at half
    rw [old, List.countP_append, List.countP_append] at whole
    omega

/-- The other half follows at the same place, and leaves nothing half done. -/
theorem Valid.completed {id : CallId} {path : Path} {t : Activity} (valid : m.Valid)
    (half : (∃ x refs, t = .inspect x refs) ∨ ∃ x, t = .fire x) (here : m.task? id path = some t) (one : m.halves = 1)
    (step : m.step? env (.run id path) = some m') :
    m'.halves = 0 ∧ ∃ t', Activity.Act ((env id).behaviour path) m.world t m'.world t' := by
  have acting : t.node? ≠ none ∧ t.isHalfDone = true := by
    obtain ⟨x, refs, rfl⟩ | ⟨x, rfl⟩ := half <;> exact ⟨by simp [Activity.node?], rfl⟩
  obtain ⟨-, p, s, t', -, -, act, -, -, task, -, before, after, old, new⟩ | ⟨-, idle⟩ := valid.acts_or_collects step
  · rw [here] at task
    cases task
    refine ⟨?_, t', act⟩
    unfold halves at *
    rw [old, List.countP_append, List.countP_cons, acting.2] at one
    rw [new, List.countP_append, List.countP_append, act.other_half half]
    simp only [if_true] at one
    omega
  · exact absurd (idle t here) acting.1

/-- Both halves of an operation, one right after the other. -/
theorem Valid.both (valid : m.Valid) (whole : m.halves = 0) (step : m.step? env a = some m₁)
    (half : m₁.halves ≠ 0) (again : m₁.step? env a = some m') :
    m'.halves = 0 ∧ ∀ x, ∃ new, m'.world.journal = new ++ m.world.journal ∧
      new.reverse.filterMap (Entry.late? x) =
        World.lateCounts x m.world m₁.world ++ World.lateCounts x m₁.world m'.world := by
  obtain ⟨id, path, t, t', rfl, act, one, there, count⟩ := valid.half_taken whole step half
  have before : ∀ y refs, t ≠ .inspect y refs := by
    rintro y refs rfl
    cases one
  obtain none | ⟨holder, y, u, counted, world, rfl⟩ | ⟨y, rfl⟩ := act.half
  · exact absurd (count ▸ none) half
  -- The guard is read with the count that the node still has.
  · obtain ⟨whole, t', act'⟩ := (valid.step step).completed (.inl ⟨_, _, rfl⟩) there count.symm again
    refine ⟨whole, fun x => ?_⟩
    generalize m'.world = w at act' ⊢
    cases act' with
    | inspect =>
      have usage := m₁.world.usage_inspect y (u.refs + 1)
      obtain ⟨new, journal, late⟩ := (world ▸ Raised.halves (x := x) holder counted :
        Raised x m.world (m₁.world.inspect y (u.refs + 1))).recounts
      refine ⟨new, journal, late.trans ?_⟩
      rw [World.lateCounts_nil (w := m₁.world) fun _ => Nat.le_of_eq (by rw [usage]), List.append_nil, World.lateCounts,
        World.lateCounts, usage]
  -- A release acquires nothing in either half.
  · obtain ⟨whole, t', act'⟩ := (valid.step step).completed (.inr ⟨_, rfl⟩) there count.symm again
    refine ⟨whole, fun x => (act.recounts x before (by simp)).append (act'.recounts x (by simp) ?_)⟩
    rintro z refs rfl
    have := act'.other_half (.inr ⟨_, rfl⟩)
    cases this

theorem Valid.recounts (valid : m.Valid) (whole : m.halves = 0) (step : m.step? env a = some m')
    (whole' : m'.halves = 0) (x : NodeId) : Recounts x m.world m'.world := by
  unfold halves at *
  have still : ∀ {w : World}, w.usage = m.world.usage → (m.world.usage x).tornDown = true →
      (w.usage x).refs ≤ (m.world.usage x).refs := fun same _ => Nat.le_of_eq (by rw [same])
  cases valid.change step with
  | @build c _ world =>
    have added : Raised x m.world (m.world.add c) := .refl [] (funext (m.world.usage_add c)) rfl (by simp) (by simp)
    rw [world]
    exact (added.trans (.acquireAll _ _)).recounts
  | call _ world => exact .quiet [] (by rw [world]; rfl) (by simp) (still (by rw [world]))
  | openGate world => exact .quiet [] (by rw [world]; rfl) (by simp) (still (by rw [world]; rfl))
  | @act id path t t' before after act _ _ old new =>
    rw [old, List.countP_append, List.countP_cons] at whole
    rw [new, List.countP_append, List.countP_append] at whole'
    refine act.recounts x ?_ ?_
    · rintro y refs rfl
      simp [Activity.isHalfDone, Activity.isInterruptible] at whole
    · rintro y refs rfl
      simp [Activity.tasks, Activity.isHalfDone, Activity.isInterruptible] at whole'
  | arrange world =>
    obtain world | ⟨p, world⟩ := world
    · exact .quiet [] (by rw [world]; rfl) (by simp) (still (by rw [world]))
    · exact .quiet [.releasePanicked p] (by rw [world]; rfl) (by simp) (still (by rw [world]; rfl))
  | @finish id o world => exact .quiet [.returned id o] (by rw [world]; rfl) (by simp) (still (by rw [world]; rfl))
  | @cancel id _ _ _ world => exact .quiet [.cancelled id] (by rw [world]; rfl) (by simp) (still (by rw [world]; rfl))

theorem Unbroken.whole (unbroken : Unbroken env moves m) : m.halves = 0 := by
  induction unbroken with
  | start => rfl
  | next _ _ whole => exact whole
  | both unbroken step half again ih => exact ((unbroken.run.valid valid_empty).both ih step half again).1

end

end Machine

/-! ## The count comes to zero -/

/-- The node has lost its last reference. -/
def Transition.empties (x : NodeId) (t : Transition) : Bool :=
  (t.before.world.usage x).refs == 1 && (t.after.world.usage x).refs == 0

/-- The count did not come from one to zero, and it is not written that it did. -/
theorem World.count_lasting {w w' : World} {x : NodeId} (new : List Entry) (journal : w'.journal = new ++ w.journal)
    (silent : .dropped x 0 ∉ new) (lasts : (w.usage x).refs = 1 → (w'.usage x).refs ≠ 0) :
    w'.count (.dropped x 0) =
      w.count (.dropped x 0) + if (w.usage x).refs = 1 ∧ (w'.usage x).refs = 0 then 1 else 0 := by
  rw [if_neg fun both => lasts both.1 both.2, count, journal, List.count_append, List.count_eq_zero.mpr silent]
  exact Nat.zero_add _

/-- A release that drops the last reference writes so, and nothing else brings the count from one to zero. -/
theorem Activity.Act.empties {env : Work → Behaviour} {w w' : World} {t t' : Activity} (h : Act env w t w' t')
    (x : NodeId) : w'.count (.dropped x 0) =
      w.count (.dropped x 0) + if (w.usage x).refs = 1 ∧ (w'.usage x).refs = 0 then 1 else 0 := by
  have still : ∀ {v : World}, (v.usage x).refs = (w.usage x).refs → (w.usage x).refs = 1 → (v.usage x).refs ≠ 0 := by
    intro v same one
    omega
  cases h.reckons with
  | @up _ holder y u counted =>
    refine World.count_lasting [.acquired holder y] rfl (by simp) ?_
    by_cases here : y = x
    · subst here
      simp [World.usage_setUsage_self counted, Usage.acquire]
    · exact still (congrArg Usage.refs (World.usage_setUsage_ne _ here))
  | @read y refs =>
    obtain ⟨new, journal, acquisitions⟩ := w.journal_inspect y refs
    refine World.count_lasting new journal (fun mem => ?_) (still (by rw [World.usage_inspect]))
    cases acquisitions _ mem
  | @down _ holder y u left _ counted some_left =>
    by_cases here : y = x
    · subst here
      have now : ((w.note (.released holder y)).setUsage y { u with refs := left }).usage y =
          { u with refs := left } := World.usage_setUsage_self counted
      cases left <;> simp [now, World.usage_of_usage? counted, some_left]
    · exact World.count_lasting [.dropped y left, .released holder y] rfl (by simp [Ne.symm here])
        (still (congrArg Usage.refs (World.usage_setUsage_ne _ here)))
  | @set _ y u _ c counted =>
    refine World.count_lasting [c.opening y, .tornDown y] rfl (by cases c <;> simp [Component.opening]) (still ?_)
    by_cases here : y = x
    · subst here
      have now : (w.setUsage y { u with tornDown := true }).usage y = { u with tornDown := true } :=
        World.usage_setUsage_self counted
      rw [World.usage_note, World.usage_note, now, World.usage_of_usage? counted]
    · exact congrArg Usage.refs (World.usage_setUsage_ne _ here)
  | aside new usage journal silent =>
    exact World.count_lasting new journal (fun mem => (silent _ mem x 0).2 rfl) (still (by rw [usage]))

namespace Machine

variable {env : Environment} {m m' : Machine} {moves : List Move} {a : Move} {x : NodeId}

theorem Valid.empties (valid : m.Valid) (step : m.step? env a = some m') (x : NodeId) :
    m'.world.count (.dropped x 0) =
      m.world.count (.dropped x 0) + if (Transition.mk m a m').empties x then 1 else 0 := by
  have empties : (Transition.mk m a m').empties x = true ↔
      (m.world.usage x).refs = 1 ∧ (m'.world.usage x).refs = 0 := by
    simp [Transition.empties]
  simp only [empties]
  obtain ⟨c, -, -, world⟩ | ⟨id, path, t, t', -, act, -⟩ | ⟨nodes, new, journal, clerical⟩ :=
    (valid.change step).world_cases
  · have raised : Raised x (m.world.add c) m'.world := world ▸ .acquireAll _ _
    obtain ⟨new, journal, acquisitions, -⟩ := raised.written
    refine World.count_lasting new journal (fun mem => ?_) fun one => ?_
    · cases acquisitions _ mem
    · have refs := raised.refs
      rw [World.usage_add] at refs
      omega
  · exact act.empties x
  · have same : m'.world.usage = m.world.usage := by
      funext y
      rw [World.usage, World.usage, World.usage?, World.usage?, nodes]
    refine World.count_lasting new journal (fun mem => ?_) fun one => ?_
    · cases clerical _ mem
    · rw [same, one]
      simp

end Machine

end MetricPipeline
